/-
  Settle.Instance.Apply — applying a unit.

  The writes of the unit are made on a draft of the committed state and the passes of
  its mode converge the draft, which is then committed whatever they left undone. What
  they left undone goes back to the queue of the same instance, or into the lane. A
  budget bounds the steps that all passes of the unit run together.
-/

import Settle.Instance
import Settle.Report

namespace Settle.Instance

/-- A unit on its way through its passes. -/
structure Run where
  /-- For each pass, whether its time budget is seen to have passed when so many steps of
  it have run. -/
  clock : Nat → Nat → Bool
  inst : Instance
  context : Context
  diagnostics : Diagnostics
  /-- Named derive functions called, in order. -/
  calls : List String
  /-- Steps the passes may still run. -/
  budget : Option Nat
  report : UnitReport
  /-- Roots of a pass over immediate or all steps that found the budget spent. -/
  leftover : DirtySet
  /-- Work such passes left behind. -/
  carried : Option Carried
  /-- Work left for deferred steps. -/
  deferred : Deferred

namespace Run

/-- Leave what a pass was to work on to a later unit. -/
def leave (r : Run) (scope : Scope) (carried : Option Carried) : Run :=
  let dirty := r.context.dirty
  let r := if scope = .deferred then
      { r with
        deferred := { r.deferred with
          dirty := r.deferred.dirty.union dirty, carried := Carried.merge? r.deferred.carried carried } }
    else { r with leftover := r.leftover.union dirty, carried := Carried.merge? r.carried carried }
  if dirty.isEmpty && carried.isNone then r else { r with report := r.report.fallShort .cycleDetected }

/-- The convergence policy under the budget. -/
def config (r : Run) (scope : Scope) : Policy.Convergence :=
  let c := r.inst.policies.convergence.value
  match r.budget with
  | none => c
  | some left => { c with stepCap := some (min (c.stepCapFor (r.inst.executor.wiring.scopeSize scope)) left) }

/-- One pass within the budget; none when it is spent. -/
def pass (r : Run) (scope : Scope) (carried : Option Carried) : Option Executor.Outcome × Run :=
  if r.budget = some 0 then (none, r.leave scope carried)
  else
    let p := r.inst.executor.passUnder (r.clock r.report.passes) r.context ⟨scope, r.config scope, carried⟩ r.diagnostics
    let ran := p.outcome.summary.executedSteps
    let counted := { r.report with passes := r.report.passes + 1, steps := r.report.steps + ran }
    let report := match p.outcome.degrade with
      | some d => counted.fallShort d
      | none => counted
    let r := { r with
      inst := { r.inst with executor := p.executor }
      context := p.context
      diagnostics := p.diagnostics
      calls := r.calls ++ p.calls
      budget := r.budget.map (· - ran)
      report := report }
    let r := if scope = .deferred then
        { r with deferred := { r.deferred with carried := Carried.merge? r.deferred.carried p.outcome.carried } }
      else { r with carried := Carried.merge? r.carried p.outcome.carried }
    (some p.outcome, r)

def tellLane (r : Run) (e : Evidence) : Run :=
  { r with diagnostics := r.diagnostics.emit (.lane r.inst.key.text e) }

/-- Put roots by for the next flush, if they can move a deferred step. -/
def putBy (r : Run) (d : DirtySet) : Run :=
  if r.inst.executor.affects .deferred d then
    { r with deferred := { r.deferred with dirty := r.deferred.dirty.union d } }
  else r

/-- Let what deferred outputs changed of immediate steps settle. What that changes of
deferred ones waits for the next flush. -/
def settleBack (r : Run) (changed : List Path) : Run :=
  let feedback := DirtySet.ofPaths changed
  if !r.inst.executor.affects .immediate feedback then r
  else
    match { r with context := { r.context with dirty := feedback } }.pass .immediate none with
    | (none, r) => r
    | (some back, r) => r.putBy (.ofPaths back.changed)

/-- Take deferred work up: its roots and its evidence. -/
def takeUp (r : Run) (work : Deferred) : Run :=
  let r := r.tellLane work.evidence
  let evidence := match r.report.lane with
    | some e => e.absorb work.evidence
    | none => work.evidence
  { r with report := { r.report with lane := some evidence }, context := { r.context with dirty := work.dirty } }

/-- Run deferred work now, and settle in the same unit what its outputs change. -/
def runDeferred (r : Run) (work : Deferred) : Run :=
  match (r.takeUp work).pass .deferred work.carried with
  | (none, r) => r
  | (some outcome, r) => r.settleBack outcome.changed

/-- Deferred work that has to run in this unit, after the lane got what can wait. -/
def dueNow (r : Run) (mode : DeferredMode) (handed : Option Deferred) (work : Deferred) (now : Time) :
    Option Deferred × Run :=
  match mode, handed with
  | .inline, _ => (none, r)
  | .sync reason, some _ => (some { work with evidence := work.evidence.note reason }, r)
  | .sync reason, none => (some { work with evidence := .bypass reason }, r)
  | .lane, some _ => (some work, r)
  | .lane, none =>
    match r.inst.lane with
    | none => (none, r)
    | some l =>
      let (old, l) := l.signal now work.dirty
      (old.map .ofFlush, { r with inst := { r.inst with lane := some l } })

/-- The deferred work of a unit: what it came with, and the roots it fed if they can move
a deferred step. -/
def workFor (r : Run) (handed : Option Deferred) (fed : DirtySet) : Deferred :=
  let work := handed.getD .empty
  if r.inst.executor.affects .deferred fed then { work with dirty := work.dirty.union fed } else work

/-- The part of a sliced unit that follows its immediate pass. `fed` is what the unit
and that pass changed. -/
def afterImmediate (r : Run) (mode : DeferredMode) (handed : Option Deferred) (fed : DirtySet) (now : Time) : Run :=
  let work := r.workFor handed fed
  if work.isEmpty then r
  else
    match r.dueNow mode handed work now with
    | (none, r) => r
    | (some work, r) => r.runDeferred work

/-- The commit that carries on what passes over immediate or all steps left undone. -/
def carryOn (r : Run) : Option Commit :=
  if r.carried.isNone && r.leftover.isEmpty then none
  else some ⟨0, .carry, r.report.priority, { Change.empty with dirty := r.leftover, carried := r.carried }⟩

/-- Put deferred work that is roots alone into the lane, if there is one. Answers what has
to be queued. -/
def handOn (r : Run) (now : Time) : Option Deferred × Option Lane :=
  if r.deferred.isEmpty then (none, r.inst.lane)
  else
    match r.inst.lane, r.deferred.carried with
    | some l, none =>
      let (old, l) := l.signal now r.deferred.dirty
      (old.map .ofFlush, some l)
    | lane, _ => (some r.deferred, lane)

/-- Queue what the passes left undone on the same instance. -/
def followUps (r : Run) (now : Time) : Instance :=
  let (rest, lane) := r.handOn now
  let queued := r.carryOn.toList ++ (rest.map r.inst.deferredCommit).toList
  { r.inst with lane := lane, queue := r.inst.queue ++ queued }

end Run

/-- An instance after a unit. -/
structure Applied where
  inst : Instance
  diagnostics : Diagnostics
  calls : List String
  report : UnitReport
  /-- The state before. -/
  previous : Value

/-- Deferred work that runs with everything else: what a lane that is gone handed back. -/
def folded (i : Instance) (u : WorkUnit) : Option Deferred :=
  if i.deferredMode = .inline then u.change.deferred else none

/-- A unit before its passes: its writes are made on a draft. -/
def begin (clock : Nat → Nat → Bool) (i : Instance) (u : WorkUnit) (d : Diagnostics) (budget : Option Nat) : Run :=
  let work := i.folded u
  let i := { i with txnSeq := i.txnSeq + 1 }
  let dirty := match work with
    | some w => u.change.dirty.union w.dirty
    | none => u.change.dirty
  let start : Run :=
    { clock := clock
      inst := i
      context := ⟨u.change.applyTo i.state, u.change.patches, dirty, i.txnSeq⟩
      diagnostics := d
      calls := []
      budget := budget
      report := { UnitReport.ofUnit i.key u i.txnSeq with lane := work.map (·.evidence) }
      leftover := .empty
      carried := none
      deferred := .empty }
  match work with
  | some w => start.tellLane w.evidence
  | none => start

/-- The passes of a unit. -/
def converge (i : Instance) (u : WorkUnit) (now : Time) (start : Run) : Run :=
  match i.deferredMode with
  | .inline =>
    let carried := match i.folded u with
      | some w => Carried.merge? u.change.carried w.carried
      | none => u.change.carried
    (start.pass .all carried).2
  | mode =>
    let (first, r) := start.pass .immediate u.change.carried
    let changed := match first with
      | some outcome => outcome.changed
      | none => []
    r.afterImmediate mode u.change.deferred (changed.foldl (fun d p => d.insert p) start.context.dirty) now

/-- Apply a unit and converge it, told when the time budget of each pass is seen to have
passed. -/
def applyUnder (clock : Nat → Nat → Bool) (i : Instance) (u : WorkUnit) (now : Time) (d : Diagnostics)
    (budget : Option Nat) : Applied :=
  let done := i.converge u now (i.begin clock u d budget)
  let draft := done.context.draft
  let report := { done.report with patches := done.context.patches, changed := !draft.same i.state }
  let inst := { done with inst := { done.inst with state := draft } }.followUps now
  ⟨inst.refreshPending, done.diagnostics, done.calls, report, i.state⟩

/-- Apply a unit and converge it. A time budget of nothing has passed at the first look,
any other never. -/
def apply (i : Instance) (u : WorkUnit) (now : Time) (d : Diagnostics) (budget : Option Nat) : Applied :=
  i.applyUnder (fun _ _ => i.policies.convergence.value.budgetMs = 0) u now d budget

end Settle.Instance
