/-
  Settle.Pass.Sweep — running steps until nothing earlier is left to run.

  A round walks a list of steps in the order of the scope. A step runs when the round
  is unconditional or an input of it overlaps what has changed; a value that differs
  from the field is written, marks it, and is kept for another round when a step before
  this one reads it. The next round runs what those fields reach. A sweep ends when a
  round leaves nothing for another one, at the step cap, at the time budget, or at the
  first derive failure.
-/

import Settle.Pass.Patch
import Settle.Pass.Summary
import Settle.Plan.Reach

namespace Settle.Pass

/-- What evaluating a step gave. -/
structure Evaluation where
  /-- The value it should write, and the one there, if they differ. -/
  change : Option (Option Value × Value)
  /-- What a derive function read, if that is traced. -/
  reads : List Path

/-- Whether a value leaves the field as it is. -/
def unchanged (equality : Option Equality) (prev : Option Value) (next : Value) : Bool :=
  match prev, equality with
  | some prev, some eq => eq prev next
  | some prev, none => prev.same next
  | none, _ => false

/-- Evaluate a step over a state. A link whose source is absent changes nothing. -/
def evaluate (g : Graph) (s : Step) (body : Body) (draft : Value) (traced : Bool) : Except Fault Evaluation :=
  let prev := (g.table.path? s.out).bind (State.lookup draft)
  let compare (equality : Option Equality) (next : Value) : Option (Option Value × Value) :=
    if unchanged equality prev next then none else some (prev, next)
  match body with
  | .computed derive equality =>
    let d := derive.call draft traced
    d.outcome.map fun next => ⟨compare equality next, d.reads⟩
  | .link =>
    let source := s.source.bind g.table.path?
    .ok ⟨(source.bind (State.read draft)).bind (compare none), []⟩

/-- The name under which running the body is traced. -/
def traceName : Body → Option String
  | .computed derive _ => derive.name
  | .link => none

/-- What does not change during a sweep. -/
structure Frame where
  graph : Graph
  wiring : Wiring
  scope : Scope
  /-- Most steps that may run. -/
  cap : Nat
  /-- Whether the time budget is seen to have passed when so many steps have run. -/
  late : Nat → Bool
  /-- Whether what derive functions read is traced. -/
  traced : Bool

/-- What a sweep has done so far. -/
structure Run where
  draft : Value
  /-- Patches of this sweep, in order. -/
  patches : List Patch
  marks : Marks
  /-- Fields written, in order. -/
  changed : List PathId
  executed : Nat
  /-- Fields written in this round that an earlier step reads. -/
  again : List PathId
  /-- Computed steps that ran through, and what they read, if that is traced. -/
  reads : List (StepId × List Path)
  /-- Named derive functions called, in order. -/
  calls : List String

/-- Why a sweep stopped before its end. -/
inductive Stop where
  /-- A cap, and the steps of the round from the one that was due. -/
  | cap (reason : Degrade) (rest : List StepId)
  | failed (s : StepId) (fault : Fault)

/-- Steps between two looks at the time budget. -/
def budgetInterval : Nat := 32

def patchReason : StepKind → PatchReason
  | .computed => .computed
  | .link => .link

/-- Write the value of a step that differs from its field. -/
def Run.write (f : Frame) (r : Run) (s : Step) (prev : Option Value) (next : Value) : Run :=
  { r with
    draft := match f.graph.table.path? s.out with
      | some out => (State.write r.draft out next).state
      | none => r.draft
    patches := r.patches ++ [⟨s.label, patchReason s.kind, prev, some next, some s.id⟩]
    marks := r.marks.mark f.wiring s.out
    changed := r.changed ++ [s.out]
    again := if f.wiring.affectsEarlier f.scope s.out s.id then r.again ++ [s.out] else r.again }

/-- Run one step; a fault leaves the state alone. -/
def Run.step (f : Frame) (r : Run) (i : StepId) : Run × Option Fault :=
  match f.graph.step? i, f.graph.body? i with
  | some s, some body =>
    let r := { r with executed := r.executed + 1, calls := r.calls ++ (traceName body).toList }
    match evaluate f.graph s body r.draft f.traced with
    | .error fault => (r, some fault)
    | .ok e =>
      let r := if f.traced ∧ s.kind = .computed then { r with reads := r.reads ++ [(i, e.reads)] } else r
      match e.change with
      | some (prev, next) => (r.write f s prev next, none)
      | none => (r, none)
  | _, _ => (r, none)

/-- One round over the steps. -/
def round (f : Frame) (unconditional : Bool) : List StepId → Run → Run × Option Stop
  | [], r => (r, none)
  | i :: rest, r =>
    if !unconditional && !r.marks.touchesStep f.wiring i then round f unconditional rest r
    else if f.cap ≤ r.executed then (r, some (.cap .cycleDetected (i :: rest)))
    else if 0 < r.executed ∧ r.executed % budgetInterval = 0 ∧ f.late r.executed then
      (r, some (.cap .budgetSteps (i :: rest)))
    else
      match r.step f i with
      | (r, some fault) => (r, some (.failed i fault))
      | (r, none) => round f unconditional rest r

/-- How a sweep ended. -/
structure Swept where
  run : Run
  stop : Option Stop
  rounds : Nat
  /-- Whether the last round was unconditional. -/
  unconditional : Bool

/-- The steps that the fields kept for another round reach. -/
def nextRound (f : Frame) (r : Run) : List StepId :=
  (Plan.compute f.wiring f.scope r.again [] false).getD []

/-- Rounds until none is left to run. -/
def rounds (f : Frame) (unconditional : Bool) (steps : List StepId) (r : Run) (n : Nat) : Swept :=
  let (r', stop) := round f unconditional steps { r with again := [] }
  if stop.isSome || r'.again.isEmpty then ⟨r', stop, n, unconditional⟩
  else if r.executed < r'.executed ∧ r.executed < f.cap then
    rounds f false (nextRound f r') { r' with marks := r'.again.foldl (Marks.mark f.wiring) r'.marks.clear } (n + 1)
  else ⟨r', stop, n, unconditional⟩
termination_by f.cap - r.executed
decreasing_by omega

end Settle.Pass
