/-
  Settle.Event — what is reported to tools while modules run.
-/

import Settle.Pass.Summary

namespace Settle

inductive Severity where
  | info
  | warning
  | error
  deriving DecidableEq, Repr

def Severity.name : Severity → String
  | .info => "info"
  | .warning => "warning"
  | .error => "error"

/-- Why lane work was flushed the way it was. -/
inductive LaneReason where
  /-- Later signals were merged into the pending work. -/
  | coalesced
  /-- A wait was interrupted and its work handed out. -/
  | canceled
  /-- The staleness bound came before the end of the window. -/
  | maxLagForced
  | forcedOff
  | forcedSync
  | disabled
  deriving DecidableEq, Repr

def LaneReason.name : LaneReason → String
  | .coalesced => "coalesced"
  | .canceled => "canceled"
  | .maxLagForced => "max_lag_forced"
  | .forcedOff => "forced_off"
  | .forcedSync => "forced_sync"
  | .disabled => "disabled"

def LaneReason.table : List (String × LaneReason) :=
  [.coalesced, .canceled, .maxLagForced, .forcedOff, .forcedSync, .disabled].map fun r => (r.name, r)

/-- What is known about the signals behind a flush. -/
structure Evidence where
  signals : Nat
  coalesced : Nat
  canceled : Nat
  reasons : List LaneReason
  deriving DecidableEq, Repr

namespace Evidence

def none : Evidence := ⟨0, 0, 0, []⟩

def note (e : Evidence) (r : LaneReason) : Evidence :=
  if e.reasons.contains r then e else { e with reasons := e.reasons ++ [r] }

/-- Evidence of work that did not go through the lane. -/
def bypass (r : LaneReason) : Evidence := ⟨1, 0, 0, [r]⟩

def absorb (e other : Evidence) : Evidence :=
  other.reasons.foldl note
    { e with
      signals := e.signals + other.signals
      coalesced := e.coalesced + other.coalesced
      canceled := e.canceled + other.canceled }

def toValue (e : Evidence) : Value :=
  .record [("signals", .ofNat e.signals), ("coalesced", .ofNat e.coalesced), ("canceled", .ofNat e.canceled),
    ("reasons", .ofList (.str ·.name) e.reasons)]

end Evidence

inductive TickPhase where
  | start
  | budgetExceeded
  | settled
  deriving DecidableEq, Repr

def TickPhase.name : TickPhase → String
  | .start => "start"
  | .budgetExceeded => "budgetExceeded"
  | .settled => "settled"

/-- A moment of a tick. -/
structure TickEvent where
  tickSeq : Nat
  phase : TickPhase
  maxSteps : Nat
  urgentStepCap : Nat
  /-- Instances with queued commits, urgent and not. -/
  backlog : Nat × Nat
  steps : Nat
  stable : Option Bool
  degrade : Option Degrade
  deriving DecidableEq, Repr

inductive Event where
  | pass (s : Summary)
  | tick (t : TickEvent)
  /-- Instances pushed back behind urgent work. -/
  | priorityInversion (tickSeq : Nat) (deferred : List String) (urgentSteps maxSteps : Nat)
  | depsMismatch (module field : String) (diff : DepsDiff)
  | schemaMismatch (module path : String)
  | lane (module : String) (evidence : Evidence)
  /-- A callback failed; `downgrade` tells what could not be kept of it. -/
  | handlerFailure (module action message : String) (downgrade : Option String)
  | concurrencyPressure (module action : String) (backlog : Nat) (limit : Option Nat)
  deriving DecidableEq, Repr

namespace Event

/-- The type tag. -/
def kind : Event → String
  | .pass _ => "trait:converge"
  | .tick _ => "trace:tick"
  | .priorityInversion .. => "warn:priority-inversion"
  | .depsMismatch .. => "warn:deps-mismatch"
  | .schemaMismatch .. => "warn:schema-mismatch"
  | .lane .. => "trace:txn-lane"
  | .handlerFailure .. => "diagnostic:handler-failure"
  | .concurrencyPressure .. => "warn:concurrency-pressure"

def severity : Event → Severity
  | .pass s => if s.degrade.isSome then .warning else .info
  | .tick _ | .lane .. => .info
  | .handlerFailure .. => .error
  | .priorityInversion .. | .depsMismatch .. | .schemaMismatch .. | .concurrencyPressure .. => .warning

/-- Handler failures are reported at every level. -/
def isFailure : Event → Bool
  | .handlerFailure .. => true
  | _ => false

def pairValue (p : Nat × Nat) : Value := .arr [.ofNat p.1, .ofNat p.2]

def fields : Event → List (String × Value)
  | .pass s => s.fields
  | .tick t =>
    [("tick_seq", .ofNat t.tickSeq), ("phase", .str t.phase.name), ("max_steps", .ofNat t.maxSteps),
      ("urgent_step_cap", .ofNat t.urgentStepCap), ("backlog", pairValue t.backlog), ("steps", .ofNat t.steps),
      ("stable", .ofOption .bool t.stable), ("degrade_reason", .ofOption Degrade.toValue t.degrade)]
  | .priorityInversion tickSeq deferred urgent maxSteps =>
    [("tick_seq", .ofNat tickSeq), ("deferred", .ofList .str deferred), ("urgent_steps", .ofNat urgent),
      ("max_steps", .ofNat maxSteps)]
  | .depsMismatch module field diff =>
    [("module", .str module), ("field", .str field), ("missing", .ofList .str diff.missing),
      ("unused", .ofList .str diff.unused)]
  | .schemaMismatch module path => [("module", .str module), ("path", .str path)]
  | .lane module evidence => [("module", .str module), ("evidence", evidence.toValue)]
  | .handlerFailure module action message downgrade =>
    [("module", .str module), ("action", .str action), ("message", .str message),
      ("downgrade", .ofOption .str downgrade)]
  | .concurrencyPressure module action backlog limit =>
    [("module", .str module), ("action", .str action), ("backlog", .ofNat backlog), ("limit", .ofOption .ofNat limit)]

def toValue (e : Event) : Value := .record (("type", .str e.kind) :: e.fields)

end Event

end Settle
