/-
  Settle.Plan.BitSet — sets of indices below a bound, kept in words of 64 bits.

  A set is read in three ways, each by a trick of its own on the words: `get` tests one bit,
  `count` adds up how many bits the words have, and `toList` takes the lowest bit out of a
  word until the word is empty.

  An index has a word or it has none. One that has none can neither be asked for nor put
  in: `get?`, `set?` and `insert?` are none there. Where it has one they do what `get`,
  `set` and `insert` do.
-/

namespace Settle

structure BitSet where
  words : List UInt64
  size : Nat
  deriving DecidableEq, Repr

namespace BitSet

/-- The empty set of indices below `size`. -/
def empty (size : Nat) : BitSet := ⟨List.replicate ((size + 63) / 64) 0, size⟩

/-- The word with one bit. -/
def bit (i : Nat) : UInt64 := 1 <<< (i % 64).toUInt64

def get (s : BitSet) (i : Nat) : Bool := (s.words.getD (i / 64) 0) &&& bit i != 0

def set (s : BitSet) (i : Nat) : BitSet :=
  { s with words := s.words.modify (i / 64) fun w => w ||| bit i }

/-- Put an index in; tells whether it was out. -/
def insert (s : BitSet) (i : Nat) : Bool × BitSet := (!s.get i, s.set i)

def clear (s : BitSet) : BitSet := { s with words := s.words.map fun _ => 0 }

/-! ## Indices that have a word -/

def get? (s : BitSet) (i : Nat) : Option Bool := (s.words[i / 64]?).map fun w => w &&& bit i != 0

def set? (s : BitSet) (i : Nat) : Option BitSet :=
  (s.words[i / 64]?).map fun w => { s with words := s.words.set (i / 64) (w ||| bit i) }

def insert? (s : BitSet) (i : Nat) : Option (Bool × BitSet) := do
  let found ← s.get? i
  let s ← s.set? i
  return (!found, s)

/-! ## Bits of a word -/

/-- Number of bits of a word. -/
def popCount (w : UInt64) : Nat := w.toBitVec.cpop.toNat

/-- Position of the lowest bit of a word; 64 when the word is empty. -/
def lowest (w : UInt64) : Nat := w.toBitVec.ctz.toNat

/-- A word less its lowest bit: subtracting one turns that bit off and those below it on. -/
def dropLowest (w : UInt64) : UInt64 := w &&& (w - 1)

theorem one_le {w : UInt64} (h : w ≠ 0) : 1 ≤ w :=
  UInt64.le_iff_toNat_le.2 (Nat.pos_of_ne_zero fun e => h (UInt64.toNat_inj.1 e))

theorem toNat_dropLowest {w : UInt64} (h : w ≠ 0) : (dropLowest w).toNat = w.toNat &&& (w.toNat - 1) := by
  rw [dropLowest, UInt64.toNat_and, UInt64.toNat_sub_of_le _ _ (one_le h), UInt64.toNat_one]

theorem dropLowest_lt {w : UInt64} (h : w ≠ 0) : (dropLowest w).toNat < w.toNat := by
  have hpos : 0 < w.toNat := UInt64.le_iff_toNat_le.1 (one_le h)
  rw [toNat_dropLowest h]
  exact Nat.lt_of_le_of_lt Nat.and_le_right (Nat.sub_one_lt_of_lt hpos)

/-- Positions of the bits of a word: that of its lowest bit, and those of what it is without
it. -/
def positions (w : UInt64) : List Nat :=
  if _h : w = 0 then [] else lowest w :: positions (dropLowest w)
termination_by w.toNat
decreasing_by exact dropLowest_lt _h

/-! ## Members -/

def count (s : BitSet) : Nat := s.words.foldl (fun n w => n + popCount w) 0

def toList (s : BitSet) : List Nat := s.words.zipIdx.flatMap fun e => (positions e.1).map (e.2 * 64 + ·)

end BitSet

end Settle
