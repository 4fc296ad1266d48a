/-
  Settle.Value — the tree a state is made of.

  Objects hold their fields in strictly increasing order of the key, so two objects
  with the same fields are the same list. Integers and doubles are different kinds of
  number: `1` and `1.0` are different values. `same` is the comparison the engine uses
  to decide whether a field changed; it differs from `=` only in the two zeros of a
  double, which are one number.
-/

import Settle.Double

namespace Settle

inductive Value where
  | null
  | bool (b : Bool)
  | int (i : Int)
  | double (d : Double)
  | str (s : String)
  | arr (items : List Value)
  | obj (fields : List (String × Value))
  deriving Inhabited

/-- The fields of an object, in increasing order of the key. -/
abbrev Fields := List (String × Value)

namespace Fields

def get? (k : String) : Fields → Option Value
  | [] => none
  | (k', v) :: rest => if k' = k then some v else get? k rest

/-- Replace the field `k`, or insert it at its place in the order. -/
def set (k : String) (v : Value) : Fields → Fields
  | [] => [(k, v)]
  | (k', v') :: rest =>
    if k' = k then (k, v) :: rest
    else if k < k' then (k, v) :: (k', v') :: rest
    else (k', v') :: set k v rest

def erase (k : String) : Fields → Fields
  | [] => []
  | (k', v') :: rest => if k' = k then rest else (k', v') :: erase k rest

def keys (fs : Fields) : List String := fs.map (·.1)

/-- Fields in any order, the later of two with one key winning. -/
def ofList (l : List (String × Value)) : Fields := l.foldl (fun fs p => set p.1 p.2 fs) []

/-- The keys increase strictly. -/
def Ordered (fs : Fields) : Prop := fs.Pairwise fun a b => a.1 < b.1

@[simp] theorem get?_set_self (k : String) (v : Value) (fs : Fields) : get? k (set k v fs) = some v := by
  induction fs with
  | nil => simp [set, get?]
  | cons p rest ih =>
    obtain ⟨k', v'⟩ := p
    by_cases h : k' = k
    · simp [set, get?, h]
    · by_cases hlt : k < k'
      · simp [set, get?, h, hlt]
      · simp [set, get?, h, hlt, ih]

theorem get?_set_ne {k k₂ : String} (h : k₂ ≠ k) (v : Value) (fs : Fields) :
    get? k₂ (set k v fs) = get? k₂ fs := by
  induction fs with
  | nil => simp [set, get?, Ne.symm h]
  | cons p rest ih =>
    obtain ⟨k', v'⟩ := p
    by_cases hk : k' = k
    · subst hk; simp [set, get?, Ne.symm h]
    · by_cases hlt : k < k'
      · simp [set, get?, hk, hlt, Ne.symm h]
      · simp [set, get?, hk, hlt, ih]

end Fields

namespace Value

mutual
/-- Whether two values count as the same: equal but for the sign of a zero. -/
def same : Value → Value → Bool
  | .null, .null => true
  | .bool a, .bool b => a == b
  | .int a, .int b => a == b
  | .double a, .double b => Double.same a b
  | .str a, .str b => a == b
  | .arr a, .arr b => sameItems a b
  | .obj a, .obj b => sameFields a b
  | _, _ => false
def sameItems : List Value → List Value → Bool
  | [], [] => true
  | a :: as, b :: bs => same a b && sameItems as bs
  | _, _ => false
def sameFields : List (String × Value) → List (String × Value) → Bool
  | [], [] => true
  | (k, a) :: as, (l, b) :: bs => k == l && same a b && sameFields as bs
  | _, _ => false
end

instance : BEq Value := ⟨same⟩

/-- Build an object from fields in any order. -/
def record (fs : List (String × Value)) : Value := .obj (Fields.ofList fs)

def ofOption {α : Type} (f : α → Value) : Option α → Value
  | none => .null
  | some a => f a

def ofList {α : Type} (f : α → Value) (l : List α) : Value := .arr (l.map f)

def ofNat (n : Nat) : Value := .int n

/-- A double if it is finite, otherwise `null`. -/
def ofFloat (x : Float) : Value :=
  match Double.ofFloat? x with
  | some d => .double d
  | none => .null

def isNull : Value → Bool
  | .null => true
  | _ => false

def field? : Value → String → Option Value
  | .obj fs, k => Fields.get? k fs
  | _, _ => none

def item? : Value → Nat → Option Value
  | .arr items, i => items[i]?
  | _, _ => none

def asArray? : Value → Option (List Value)
  | .arr items => some items
  | _ => none

def asObject? : Value → Option Fields
  | .obj fs => some fs
  | _ => none

def asString? : Value → Option String
  | .str s => some s
  | _ => none

/-- An integer of 64 bits with a sign; floats and larger integers are none. -/
def asInt64? : Value → Option Int
  | .int i => if -0x8000000000000000 ≤ i ∧ i < 0x8000000000000000 then some i else none
  | _ => none

/-- Any number as a float, integers rounded to the nearest. -/
def asFloat? : Value → Option Float
  | .int i => some (if i < 0 then -(i.natAbs.toUInt64.toFloat) else i.natAbs.toUInt64.toFloat)
  | .double d => some d.toFloat
  | _ => none

end Value

end Settle
