/-
  Settle.Tick — one pass over everything that is queued.

  A tick takes up the instances with queued commits in rounds.
  - Urgent instances come first, in the order of their commits. Together they may run so
    many steps; once those are spent the rest wait and the tick falls short.
  - Others follow while fewer units are accepted than the limit; the rest wait, which is
    told as a priority inversion. A tick that has accepted nothing takes one of them.
  - A change of a link's source queues a commit on its target, which a later round takes
    up.
  An instance is accepted at most once in a tick. What is queued on it after that waits
  for the next one and the tick falls short.
-/

import Settle.Store

namespace Settle

namespace Tick

/-- A tick under way. -/
structure Running where
  store : Store
  diagnostics : Diagnostics
  calls : List String
  report : TickReport
  /-- The instances that changed, and their states. -/
  changed : List (Key × Value)
  /-- Instances accepted or put off. -/
  skip : List Key
  accepted : List Key
  /-- The spent step cap was told. -/
  toldSpent : Bool

/-- What stays the same during a tick. -/
structure Frame where
  limits : Policy.TickLimits
  links : List Link
  now : Time

def Frame.event (f : Frame) (tickSeq : Nat) (phase : TickPhase) (backlog : Nat × Nat) (steps : Nat)
    (stable : Option Bool) (degrade : Option Degrade) : Event :=
  .tick ⟨tickSeq, phase, f.limits.maxSteps, f.limits.urgentStepCap, backlog, steps, stable, degrade⟩

namespace Running

/-- Put an urgent instance off because the step cap is spent. -/
def putOff (t : Running) (f : Frame) (key : Key) : Running :=
  let report := t.report.fallShort .cycleDetected
  let diagnostics := if t.toldSpent then t.diagnostics
    else t.diagnostics.emit
      (f.event report.tickSeq .budgetExceeded t.store.backlog report.steps (some false) (some .cycleDetected))
  { t with report := report, diagnostics := diagnostics, toldSpent := true, skip := t.skip ++ [key] }

/-- Queue the copy of one link, unless the target already has the value. -/
def copy (priority : Priority) (store : Store) (l : Link) (v : Value) : Store :=
  let prev := (store.find? l.target).bind fun i => State.read i.pending l.targetPath
  if prev.any (·.same v) then store
  else
    match store.enqueue l.target (l.commit v prev priority) with
    | .ok next => next
    | .error _ => store

/-- Accept an instance. -/
def accept (t : Running) (f : Frame) (key : Key) (priority : Priority) (budget : Option Nat) : Running :=
  match t.store.find? key with
  | none => t
  | some i =>
    match i.takeUnit with
    | (none, _) => t
    | (some u, i) =>
      let a := i.apply u f.now t.diagnostics budget
      let store := t.store.put a.inst
      let steps := a.report.steps
      let counted := { t.report with
        urgentSteps := if priority = Priority.normal then t.report.urgentSteps + steps else t.report.urgentSteps
        steps := t.report.steps + steps }
      let report := match a.report.degrade with
        | some d => counted.fallShort d
        | none => counted
      let copies := if a.report.changed then Link.propagate f.links key a.previous a.inst.state else []
      { t with
        store := copies.foldl (fun s c => copy priority s c.1 c.2) store
        diagnostics := a.diagnostics
        calls := t.calls ++ a.calls
        report := { report with units := report.units ++ [a.report] }
        changed := if a.report.changed then t.changed ++ [(key, a.inst.state)] else t.changed
        skip := t.skip ++ [key]
        accepted := t.accepted ++ [key] }

/-- Offer the next turn to an instance, under the priority it came up with. -/
def offer (f : Frame) (t : Running) (turn : Key × Priority) : Running :=
  let (key, priority) := turn
  match priority with
  | .normal =>
    let left := f.limits.urgentStepCap - t.report.urgentSteps
    if left = 0 then t.putOff f key else t.accept f key .normal (some left)
  | .low =>
    if f.limits.maxSteps ≤ t.report.units.length ∧ t.report.units ≠ [] then
      { t with report := { t.report with deferred := t.report.deferred ++ [key] }, skip := t.skip ++ [key] }
    else t.accept f key .low none

/-- Rounds until nothing is ready, at most so many. -/
def rounds (f : Frame) : Nat → Running → Running
  | 0, t => t
  | n + 1, t =>
    match t.store.ready t.skip with
    | [] => t
    | turns => rounds f n (turns.foldl (offer f) { t with report := { t.report with rounds := t.report.rounds + 1 } })

/-- Judge the tick once its rounds are over. -/
def close (f : Frame) (t : Running) : Running :=
  let report := if (t.store.requeued t.accepted).isEmpty then t.report else t.report.fallShort .cycleDetected
  let (report, diagnostics) := if report.deferred.isEmpty then (report, t.diagnostics)
    else (report.fallShort .budgetSteps, t.diagnostics.emit
      (.priorityInversion report.tickSeq (report.deferred.map (·.text)) report.urgentSteps f.limits.maxSteps))
  let report := { report with backlog := t.store.backlog }
  { t with
    report := report
    diagnostics := diagnostics.emit
      (f.event report.tickSeq .settled report.backlog report.steps (some report.stable) report.degrade) }

end Running

/-- Run a tick after the one numbered `last`. With nothing queued it is idle. -/
def run (f : Frame) (last : Nat) (store : Store) (d : Diagnostics) : Running :=
  let backlog := store.backlog
  if backlog = (0, 0) then ⟨store, d, [], .idleAt last, [], [], [], false⟩
  else
    let started := d.emit (f.event (last + 1) .start backlog 0 none none)
    (Running.rounds f (max 1 f.limits.maxDrainRounds) ⟨store, started, [], .ofSeq (last + 1), [], [], [], false⟩).close f

end Tick

end Settle
