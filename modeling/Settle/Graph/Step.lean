/-
  Settle.Graph.Step — compiled steps and the scopes they run in.
-/

import Settle.Declaration
import Settle.Graph.PathTable

namespace Settle

abbrev StepId := Nat

inductive StepKind where
  | computed
  | link
  deriving DecidableEq, Repr

def StepKind.name : StepKind → String
  | .computed => "computed"
  | .link => "link"

/-- A compiled step, told by ids. -/
structure Step where
  id : StepId
  kind : StepKind
  /-- The field it writes. -/
  out : PathId
  /-- What it reads, sorted, each once. -/
  deps : List PathId
  /-- What a link copies. -/
  source : Option PathId
  scheduling : Scheduling
  /-- The path text of the field it writes. -/
  label : String
  /-- The group that declared it. -/
  group : String
  deriving DecidableEq, Repr

namespace Step

/-- What a change of may move the step: its dependencies and the field it writes. -/
def inputs (s : Step) : List PathId := (s.deps ++ [s.out]).mergeSort.eraseReps

def toValue (s : Step) : Value :=
  .record [("id", .ofNat s.id), ("kind", .str s.kind.name), ("out", .ofNat s.out), ("deps", .ofList .ofNat s.deps),
    ("from", .ofOption .ofNat s.source), ("scheduling", .str s.scheduling.name), ("label", .str s.label),
    ("group", .str s.group)]

end Step

/-- How a step comes to its value. -/
inductive Body where
  | computed (derive : Derive) (equality : Option Equality)
  | link

/-- The steps a pass covers. -/
inductive Scope where
  | all
  | immediate
  | deferred
  deriving DecidableEq, Repr

namespace Scope

def name : Scope → String
  | .all => "all"
  | .immediate => "immediate"
  | .deferred => "deferred"

def table : List (String × Scope) := [("all", .all), ("immediate", .immediate), ("deferred", .deferred)]

def includes : Scope → Scheduling → Bool
  | .all, _ => true
  | .immediate, s => s == .immediate
  | .deferred, s => s == .deferred

end Scope

/-- One thing for each scope. -/
structure PerScope (α : Type) where
  all : α
  immediate : α
  deferred : α

namespace PerScope

def get {α : Type} (p : PerScope α) : Scope → α
  | .all => p.all
  | .immediate => p.immediate
  | .deferred => p.deferred

def map {α β : Type} (f : α → β) (p : PerScope α) : PerScope β := ⟨f p.all, f p.immediate, f p.deferred⟩

@[simp] theorem get_map {α β : Type} (f : α → β) (p : PerScope α) (s : Scope) : (p.map f).get s = f (p.get s) := by
  cases s <;> rfl

end PerScope

end Settle
