/-
  Settle.View — what a derive function sees of the state, and what it read.

  A view answers reads. A traced one keeps the list of paths asked for, so that the
  declared dependencies of a field can be held against the paths its function touched;
  a plain one keeps none. What reads a view cannot tell which it was given.
-/

import Settle.State
import Settle.Value.Text

namespace Settle

/-- Why a derive function gave no value. -/
inductive Fault where
  /-- It reported a failure. -/
  | failed (message : String)
  /-- It panicked, with a message or with a payload that is no text. -/
  | panicked (message : Option String)
  deriving DecidableEq, Repr

def Fault.message : Fault → String
  | .failed m => m
  | .panicked (some m) => m
  | .panicked none => "derive panicked with a non-string payload"

/-- A state and, if they are traced, the paths read from it so far. -/
structure View where
  state : Value
  traced : Bool
  reads : List Path

namespace View

/-- A traced view. -/
def ofState (state : Value) : View := ⟨state, true, []⟩

def plain (state : Value) : View := ⟨state, false, []⟩

/-- Keep the paths of a read if they are traced. -/
def keep (v : View) (ps : List Path) : View := if v.traced then { v with reads := v.reads ++ ps } else v

/-- The value at a path text: null where it is absent or no path. -/
def get (v : View) (path : String) : Value × View :=
  match Path.parse path with
  | .error _ => (.null, v)
  | .ok p => ((State.read v.state p).getD .null, v.keep [p])

/-- The number at a path. -/
def number (v : View) (path : String) : Except Fault Float × View :=
  let (value, v) := v.get path
  match value.asFloat? with
  | some x => (.ok x, v)
  | none => (.error (.failed s!"`{path}` is not a number"), v)

/-- The text at a path: nothing where there is nothing. -/
def string (v : View) (path : String) : String × View :=
  let (value, v) := v.get path
  (value.display, v)

/-- The whole state, a read of each top-level field. -/
def root (v : View) : Value × View :=
  let keys := (v.state.asObject?.getD []).keys
  (v.state, v.keep (keys.filterMap fun k => (Path.ofSegments [k]).toOption))

@[simp] theorem keep_state (v : View) (ps : List Path) : (v.keep ps).state = v.state := by
  unfold keep
  split <;> rfl

/-- Over views of one state the reading gives the same, and leaves views of one state. -/
def Blind {α : Type} (f : View → α × View) : Prop :=
  ∀ v v' : View, v'.state = v.state → (f v').1 = (f v).1 ∧ (f v').2.state = (f v).2.state

theorem blind_get (path : String) : Blind (·.get path) := by
  intro v v' h
  dsimp only [get]
  split
  · exact ⟨rfl, h⟩
  · exact ⟨by rw [h], by rw [keep_state, keep_state, h]⟩

theorem blind_number (path : String) : Blind (·.number path) := by
  intro v v' h
  obtain ⟨hvalue, hleft⟩ := blind_get path v v' h
  dsimp only [number] at hvalue hleft ⊢
  rw [hvalue]
  split
  · exact ⟨rfl, hleft⟩
  · exact ⟨rfl, hleft⟩

theorem blind_string (path : String) : Blind (·.string path) := by
  intro v v' h
  obtain ⟨hvalue, hleft⟩ := blind_get path v v' h
  exact ⟨congrArg Value.display hvalue, hleft⟩

theorem blind_root : Blind (·.root) := by
  intro v v' h
  refine ⟨h, ?_⟩
  dsimp only [root]
  rw [keep_state, keep_state, h]

end View

/-- Declared dependencies against traced reads. -/
structure DepsDiff where
  /-- Paths read that no declared dependency overlaps, sorted. -/
  missing : List String
  /-- Declared dependencies that no read overlaps, as declared. -/
  unused : List String
  deriving DecidableEq, Repr

namespace DepsDiff

/-- A sorted list without its repetitions. -/
def sortedTexts (l : List String) : List String :=
  (l.mergeSort fun a b => !decide (b < a)).eraseReps

/-- The difference, if there is one. -/
def between (declared reads : List Path) : Option DepsDiff :=
  let missing := reads.filter fun r => !declared.any (·.overlaps r)
  let unused := declared.filter fun d => !reads.any (·.overlaps d)
  if missing = [] ∧ unused = [] then none
  else some ⟨sortedTexts (missing.map Path.text), unused.map Path.text⟩

def toValue (d : DepsDiff) : Value :=
  .record [("missing", .ofList .str d.missing), ("unused", .ofList .str d.unused)]

end DepsDiff

end Settle
