/-
  Settle.Path — normalized paths into a state tree.

  A path is a non-empty list of segments. Array positions are not told apart: the
  texts `items[3]`, `items[]` and `items.3` all stand for `items.*`, so a list item is
  something a field can depend on and a write to any index marks the same path.

  Paths are ordered segment by segment, a path before its extensions. In that order a
  path's extensions follow it without a gap, so dropping each path that the last kept
  one covers leaves the roots (`roots`): no path of the result covers another, and
  every input path is covered.
-/

namespace Settle

/-- The segment that stands for any array position. -/
def wildcard : String := "*"

/-- Why a text is no path. -/
inductive PathError where
  /-- No segment is left. -/
  | empty
  /-- The wildcard alone names no field. -/
  | bareWildcard
  /-- A segment has brackets that do not close, do not stand last or hold no index. -/
  | malformed (input part : String)
  deriving DecidableEq, Repr

def PathError.message : PathError → String
  | .empty => "empty field path"
  | .bareWildcard => "bare wildcard is not a field path"
  | .malformed input part => s!"malformed segment `{part}` in `{input}`"

/-- A normalized location in a state tree. -/
structure Path where
  segments : List String
  nonempty : segments ≠ []
  deriving DecidableEq

instance : Inhabited Path := ⟨⟨[wildcard], by simp⟩⟩

namespace Path

/-! ## Reading -/

def isDigits (cs : List Char) : Bool := cs.all fun c => '0' ≤ c && c ≤ '9'

/-- The pieces between occurrences of a separator; one more than there are separators. -/
def splitAt (sep : Char) : List Char → List (List Char)
  | [] => [[]]
  | c :: rest =>
    if c = sep then [] :: splitAt sep rest
    else match splitAt sep rest with
      | [] => [[c]]
      | first :: more => (c :: first) :: more

/-- A path from segments: empty ones are dropped and numbers become the wildcard. -/
def ofSegments (segments : List String) : Except PathError Path :=
  let kept := (segments.filter (· ≠ "")).map fun s => if isDigits s.toList then wildcard else s
  if h : kept = [] then .error .empty
  else if kept = [wildcard] then .error .bareWildcard
  else .ok ⟨kept, h⟩

/-- The name in front of a bracket; it may be missing but holds no bracket itself. -/
def bracketBase (cs : List Char) : Option (List String) :=
  if cs.contains '[' || cs.contains ']' then none
  else some (if cs = [] then [] else [String.ofList cs])

/-- The text less its last character, if that is `c`. -/
def dropLast? (c : Char) (cs : List Char) : Option (List Char) :=
  if cs.getLast? = some c then some cs.dropLast else none

/-- The segments of one part between dots: `name`, `base[]` or `base[digits]`. -/
def partSegments (part : List Char) : Option (List String) :=
  match (dropLast? ']' part).bind (dropLast? '[') with
  | some base => (bracketBase base).map (· ++ [wildcard])
  | none =>
    if part.contains '[' then
      match dropLast? ']' ((part.dropWhile (· ≠ '[')).drop 1) with
      | some index =>
        if index ≠ [] && isDigits index then
          (bracketBase (part.takeWhile (· ≠ '['))).map (· ++ [wildcard])
        else none
      | none => none
    else if part.contains ']' then none
    else some [if isDigits part then wildcard else String.ofList part]

/-- The segments of all parts, or the first part that is malformed. -/
def partsSegments (input : String) : List (List Char) → Except PathError (List String)
  | [] => .ok []
  | part :: rest =>
    match partSegments part with
    | none => .error (.malformed input (String.ofList part))
    | some segments => (partsSegments input rest).map (segments ++ ·)

/-- Read a path from its dotted text. -/
def parse (input : String) : Except PathError Path :=
  if input = wildcard then .error .bareWildcard
  else
    let parts := (splitAt '.' input.toList).filter (· ≠ [])
    (partsSegments input parts).bind ofSegments

def text (p : Path) : String := ".".intercalate p.segments

/-! ## Parts and order -/

def length (p : Path) : Nat := p.segments.length

def first (p : Path) : String := p.segments.head p.nonempty

def last (p : Path) : String := p.segments.getLast p.nonempty

def hasWildcard (p : Path) : Bool := p.segments.contains wildcard

/-- The leading `n` segments, unless there are not so many or none. -/
def take? (p : Path) (n : Nat) : Option Path :=
  if h : p.segments.take n ≠ [] ∧ n ≤ p.segments.length then some ⟨p.segments.take n, h.1⟩ else none

/-- The path without its last segment; a top-level field has none. -/
def parent (p : Path) : Option Path := p.take? (p.length - 1)

/-- One more segment, taken as it is. -/
def append (p : Path) (segment : String) : Path := ⟨p.segments ++ [segment], by simp⟩

/-- Every initial part of a path, itself last. -/
def ancestry (p : Path) : List Path := (List.range p.length).filterMap fun n => p.take? (n + 1)

/-- `p` is `q` or one of its ancestors. -/
def covers (p q : Path) : Bool := p.segments.isPrefixOf q.segments

/-- One of the two covers the other. -/
def overlaps (p q : Path) : Bool := p.covers q || q.covers p

instance : LT Path := ⟨fun p q => p.segments < q.segments⟩

instance (p q : Path) : Decidable (p < q) := inferInstanceAs (Decidable (p.segments < q.segments))

/-- `p` comes at or before `q`. -/
def le (p q : Path) : Bool := !decide (q < p)

def compare (p q : Path) : Ordering :=
  if p < q then .lt else if q < p then .gt else .eq

/-! ## Roots -/

/-- Drop each path covered by the last one kept. -/
def dropCovered : Option Path → List Path → List Path
  | _, [] => []
  | some r, p :: rest => if r.covers p then dropCovered (some r) rest else p :: dropCovered (some p) rest
  | none, p :: rest => p :: dropCovered (some p) rest

/-- The sorted paths that no other one covers, each once. -/
def roots (paths : List Path) : List Path := dropCovered none (paths.mergeSort le)

end Path

end Settle
