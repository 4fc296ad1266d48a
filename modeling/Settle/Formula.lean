/-
  Settle.Formula — derive functions written as expressions.

  A formula is evaluated over a view of the state, operands from left to right; the
  first fault ends it. Integer arithmetic is that of 64-bit words with a sign, a value
  that is no such integer counting as zero; float arithmetic is that of doubles, and a
  result that is no finite double is null.
-/

import Settle.Declaration

namespace Settle

inductive Formula where
  | const (v : Value)
  | get (path : String)
  | number (path : String)
  | string (path : String)
  | root
  | add (es : List Formula)
  | mul (es : List Formula)
  | least (es : List Formula)
  | fadd (es : List Formula)
  | fmul (es : List Formula)
  | fdiv (a b : Formula)
  | concat (es : List Formula)
  | length (e : Formula)
  | sum (e : Formula)
  | gt (a b : Formula)
  | eq (a b : Formula)
  | cond (c a b : Formula)
  | array (es : List Formula)
  /-- An object; its fields are evaluated in key order. -/
  | object (fs : List (String × Formula))
  | fail (message : String)
  | panic (message : Option String)
  deriving Inhabited

namespace Formula

/-- A reading of the state that may fault. -/
abbrev Reading := ExceptT Fault (StateM View)

def reading {α : Type} (f : View → α × View) : Reading α := fun v => let (a, v) := f v; (.ok a, v)

namespace Reading

variable {α β : Type}

theorem blind_pure (a : α) : View.Blind (pure a : Reading α) := fun _ _ h => ⟨rfl, h⟩

theorem blind_throw (fault : Fault) : View.Blind (throw fault : Reading α) := fun _ _ h => ⟨rfl, h⟩

theorem blind_reading {f : View → α × View} (hf : View.Blind f) : View.Blind (reading f) := fun v v' h =>
  ⟨congrArg Except.ok (hf v v' h).1, (hf v v' h).2⟩

theorem blind_bind {m : Reading α} {k : α → Reading β} (hm : View.Blind m) (hk : ∀ a, View.Blind (k a)) :
    View.Blind (m >>= k) := by
  intro v v' h
  obtain ⟨hgave, hleft⟩ := hm v v' h
  change (ExceptT.bindCont k (m v').1 (m v').2).1 = (ExceptT.bindCont k (m v).1 (m v).2).1
    ∧ (ExceptT.bindCont k (m v').1 (m v').2).2.state = (ExceptT.bindCont k (m v).1 (m v).2).2.state
  rw [hgave]
  cases (m v).1 with
  | error fault => exact ⟨rfl, hleft⟩
  | ok a => exact hk a _ _ hleft

theorem blind_map {m : Reading α} (hm : View.Blind m) (f : α → β) : View.Blind (m >>= fun a => pure (f a) : Reading β) :=
  blind_bind hm fun a => blind_pure (f a)

end Reading

/-- The 64-bit integer a value counts as. -/
def intOf (v : Value) : Int := v.asInt64?.getD 0

/-- The float a value counts as. -/
def floatOf (v : Value) : Float := v.asFloat?.getD 0.0

/-- Two's complement of 64 bits. -/
def wrap (i : Int) : Int := i.bmod 0x10000000000000000

def addInts (vs : List Value) : Int := vs.foldl (fun n v => wrap (n + intOf v)) 0
def mulInts (vs : List Value) : Int := vs.foldl (fun n v => wrap (n * intOf v)) 1
def leastInt : List Value → Int
  | [] => 0
  | v :: vs => vs.foldl (fun n v => min n (intOf v)) (intOf v)

/-- UTF-8 bytes of a text, items of an array, fields of an object. -/
def lengthOf : Value → Nat
  | .str s => s.utf8ByteSize
  | .arr items => items.length
  | .obj fields => fields.length
  | _ => 0

mutual
def eval : Formula → Reading Value
  | const v => pure v
  | get p => reading (·.get p)
  | number p => fun v => let (r, v) := v.number p; (r.map Value.ofFloat, v)
  | string p => do return .str (← reading (·.string p))
  | root => reading (·.root)
  | add es => do return .int (addInts (← evalAll es))
  | mul es => do return .int (mulInts (← evalAll es))
  | least es => do return .int (leastInt (← evalAll es))
  | fadd es => do return .ofFloat ((← evalAll es).foldl (fun x v => x + floatOf v) 0.0)
  | fmul es => do return .ofFloat ((← evalAll es).foldl (fun x v => x * floatOf v) 1.0)
  | fdiv a b => do
    let x ← eval a
    let y ← eval b
    return .ofFloat (floatOf x / floatOf y)
  | concat es => do return .str (String.join ((← evalAll es).map Value.display))
  | length e => do return .ofNat (lengthOf (← eval e))
  | sum e => do return .int (addInts ((← eval e).asArray?.getD []))
  | gt a b => do
    let x ← eval a
    let y ← eval b
    return .bool (decide (intOf y < intOf x))
  | eq a b => do
    let x ← eval a
    let y ← eval b
    return .bool (x.same y)
  | cond c a b => do
    match ← eval c with
    | .bool true => eval a
    | _ => eval b
  | array es => do return .arr (← evalAll es)
  | object fs => do return .obj (Fields.ofList (← evalFields fs))
  | fail m => throw (.failed m)
  | panic m => throw (.panicked m)
def evalAll : List Formula → Reading (List Value)
  | [] => pure []
  | e :: es => do
    let v ← eval e
    return v :: (← evalAll es)
def evalFields : List (String × Formula) → Reading (List (String × Value))
  | [] => pure []
  | (k, e) :: es => do
    let v ← eval e
    return (k, v) :: (← evalFields es)
end

open Reading in
mutual

/-- A formula gives the same over a traced view and a plain one. -/
theorem eval_blind (e : Formula) : View.Blind (eval e) := by
  cases e with
  | const v => exact blind_pure v
  | get p => exact blind_reading (View.blind_get p)
  | number p => exact fun v v' h =>
      ⟨congrArg (Except.map Value.ofFloat) (View.blind_number p v v' h).1, (View.blind_number p v v' h).2⟩
  | string p => exact blind_map (blind_reading (View.blind_string p)) _
  | root => exact blind_reading View.blind_root
  | add es => exact blind_map (evalAll_blind es) _
  | mul es => exact blind_map (evalAll_blind es) _
  | least es => exact blind_map (evalAll_blind es) _
  | fadd es => exact blind_map (evalAll_blind es) _
  | fmul es => exact blind_map (evalAll_blind es) _
  | fdiv a b => exact blind_bind (eval_blind a) fun _ => blind_map (eval_blind b) _
  | concat es => exact blind_map (evalAll_blind es) _
  | length e => exact blind_map (eval_blind e) _
  | sum e => exact blind_map (eval_blind e) _
  | gt a b => exact blind_bind (eval_blind a) fun _ => blind_map (eval_blind b) _
  | eq a b => exact blind_bind (eval_blind a) fun _ => blind_map (eval_blind b) _
  | cond c a b =>
    refine blind_bind (eval_blind c) fun x => ?_
    split
    · exact eval_blind a
    · exact eval_blind b
  | array es => exact blind_map (evalAll_blind es) _
  | object fs => exact blind_map (evalFields_blind fs) _
  | fail m => exact blind_throw _
  | panic m => exact blind_throw _

theorem evalAll_blind (es : List Formula) : View.Blind (evalAll es) := by
  cases es with
  | nil => exact blind_pure []
  | cons e es => exact blind_bind (eval_blind e) fun _ => blind_map (evalAll_blind es) _

theorem evalFields_blind (fs : List (String × Formula)) : View.Blind (evalFields fs) := by
  cases fs with
  | nil => exact blind_pure []
  | cons f fs => exact blind_bind (eval_blind f.2) fun _ => blind_map (evalFields_blind fs) _

end

/-- The derive function a formula stands for, traced under a name. -/
def derive (name : Option String) (e : Formula) : Derive := .ofView name (fun v => eval e v) (eval_blind e)

end Formula

namespace Equality

/-- Every value counts as the previous one. -/
def always : Equality := fun _ _ => true

/-- No value counts as the previous one. -/
def never : Equality := fun _ _ => false

/-- Two numbers nearer than a tolerance. -/
def within (tolerance : Float) : Equality := fun a b =>
  match a.asFloat?, b.asFloat? with
  | some x, some y => (x - y).abs < tolerance
  | _, _ => false

/-- Two integers with the same remainder. -/
def modulo (n : Int) : Equality := fun a b => Formula.intOf a % n == Formula.intOf b % n

end Equality

end Settle
