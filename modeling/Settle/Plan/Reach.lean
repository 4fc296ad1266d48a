/-
  Settle.Plan.Reach — the steps that a change can reach.

  A plan holds the forced steps of the scope, the steps whose inputs overlap a root,
  and those whose inputs overlap the output of a step in the plan, in the order of the
  scope. Two algorithms find it. A small scope without cycles is scanned in order until
  a scan adds nothing; any other scope is closed by a queue of changed paths. Only the
  queue looks at the decision deadline, once in every thirty-two paths taken from it.
-/

import Settle.Plan.Wiring

namespace Settle.Plan

open Wiring

/-- Scopes below this size and without cycles are scanned. -/
def smallScope : Nat := 32

/-- Paths taken from the queue between two looks at the deadline. -/
def deadlineInterval : Nat := 32

/-! ## Scanning -/

/-- One scan: the steps not reached, and the marks after it. -/
def scan (w : Wiring) : List StepId → Marks → List StepId × Marks
  | [], m => ([], m)
  | s :: rest, m =>
    if m.touchesStep w s then scan w rest (m.mark w (w.out s))
    else
      let (left, m) := scan w rest m
      (s :: left, m)

/-- Scan until nothing is added; the steps not reached. -/
def scans (w : Wiring) (todo : List StepId) (m : Marks) : List StepId :=
  let r := scan w todo m
  if r.1.length < todo.length then scans w r.1 r.2 else r.1
termination_by todo.length

/-- The plan of a small scope. -/
def linear (w : Wiring) (scope : Scope) (roots : List PathId) (forced : List StepId) : List StepId :=
  let forced := forced.filter (w.inScope scope)
  let marks := (roots ++ forced.map w.out).foldl (Marks.mark w) (.empty w)
  let left := scans w ((w.order scope).filter fun s => !forced.contains s) marks
  (w.order scope).filter fun s => !left.contains s

/-! ## Closing -/

/-- How a closure ended: the steps reached in the order of discovery, or cut off. -/
inductive Closure where
  | closed (reached : List StepId)
  | cutoff
  deriving DecidableEq, Repr

theorem length_partition_add {α : Type} (p : α → Bool) (l : List α) :
    (l.partition p).1.length + (l.partition p).2.length = l.length := by
  simp only [List.partition_eq_filter_filter]
  induction l with
  | nil => rfl
  | cons a l ih => by_cases h : p a <;> simp [h] <;> omega

/-- Take paths from the queue until it is empty. `todo` holds the steps of the scope not
reached yet, in its order. -/
def close (w : Wiring) (expired : Bool) (todo : List StepId) (queue : List PathId) (reached : List StepId)
    (popped : Nat) : Closure :=
  match queue with
  | [] => .closed reached
  | p :: rest =>
    let popped := popped + 1
    if popped % deadlineInterval = 0 && expired then .cutoff
    else
      let split := todo.partition (w.affected p).contains
      close w expired split.2 (split.1.map w.out ++ rest) (reached ++ split.1) popped
termination_by todo.length + queue.length
decreasing_by
  have := length_partition_add (w.affected p).contains todo
  simp only [List.length_append, List.length_map, List.length_cons]
  omega

/-- Steps by their position in the order of the scope. -/
def byPosition (w : Wiring) (scope : Scope) (steps : List StepId) : List StepId :=
  steps.mergeSort fun a b => (w.position scope a).getD 0 ≤ (w.position scope b).getD 0

/-- The plan of any scope, none when cut off. Few steps are sorted, many are picked out
of the order. -/
def queued (w : Wiring) (scope : Scope) (roots : List PathId) (forced : List StepId) (expired : Bool) :
    Option (List StepId) :=
  let first := (w.order scope).filter forced.contains
  let todo := (w.order scope).filter fun s => !forced.contains s
  match close w expired todo (first.map w.out ++ roots) first 0 with
  | .cutoff => none
  | .closed reached =>
    if reached.length * 8 < w.scopeSize scope then some (byPosition w scope reached)
    else some ((w.order scope).filter reached.contains)

/-- The plan of a scope, or none when its deadline passed first. -/
def compute (w : Wiring) (scope : Scope) (roots : List PathId) (forced : List StepId) (expired : Bool) :
    Option (List StepId) :=
  if w.scopeSize scope < smallScope && !w.backEdges.get scope then some (linear w scope roots forced)
  else queued w scope roots forced expired

end Settle.Plan
