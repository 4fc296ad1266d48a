/-
  Settle.Report — what a tick tells its caller.
-/

import Settle.Commit
import Settle.Event
import Settle.Key

namespace Settle

/-- One unit that a tick accepted. -/
structure UnitReport where
  key : Key
  priority : Priority
  kinds : List CommitKind
  txnSeq : Nat
  /-- Passes run. -/
  passes : Nat
  /-- Steps its passes ran together. -/
  steps : Nat
  /-- The caller's patches, then those of derived fields in the order of their steps. -/
  patches : List Patch
  stable : Bool
  /-- The first reason for falling short. -/
  degrade : Option Degrade
  /-- Whether the committed state is another one now. -/
  changed : Bool
  /-- Evidence of the deferred work it ran. -/
  lane : Option Evidence

namespace UnitReport

def ofUnit (key : Key) (u : WorkUnit) (txnSeq : Nat) : UnitReport :=
  ⟨key, u.priority, u.kinds, txnSeq, 0, 0, [], true, none, false, none⟩

/-- Fall short for a reason; the first one stands. -/
def fallShort (r : UnitReport) (d : Degrade) : UnitReport := { r with stable := false, degrade := r.degrade <|> some d }

/-- The report with its patches written by `patch`. -/
def toValueWith (patch : Patch → Value) (r : UnitReport) : Value :=
  .record [("module", r.key.toValue), ("priority", .str r.priority.name), ("kinds", .ofList (.str ·.name) r.kinds),
    ("txn_seq", .ofNat r.txnSeq), ("passes", .ofNat r.passes), ("steps", .ofNat r.steps),
    ("patches", .ofList patch r.patches), ("stable", .bool r.stable),
    ("degrade_reason", .ofOption Degrade.toValue r.degrade), ("changed", .bool r.changed),
    ("lane", .ofOption Evidence.toValue r.lane)]

end UnitReport

structure TickReport where
  /-- The number of the tick; an idle one keeps the number of the tick before. -/
  tickSeq : Nat
  /-- Nothing was queued. -/
  idle : Bool
  stable : Bool
  degrade : Option Degrade
  steps : Nat
  /-- Steps run by units that came up as urgent. -/
  urgentSteps : Nat
  rounds : Nat
  units : List UnitReport
  /-- Instances pushed back to a later tick. -/
  deferred : List Key
  /-- Instances with queued commits at the end, urgent and not. -/
  backlog : Nat × Nat

namespace TickReport

def ofSeq (tickSeq : Nat) : TickReport := ⟨tickSeq, false, true, none, 0, 0, 0, [], [], (0, 0)⟩

def idleAt (tickSeq : Nat) : TickReport := { ofSeq tickSeq with idle := true }

def fallShort (r : TickReport) (d : Degrade) : TickReport := { r with stable := false, degrade := r.degrade <|> some d }

/-- The report with its patches written by `patch`. -/
def toValueWith (patch : Patch → Value) (r : TickReport) : Value :=
  .record [("tick_seq", .ofNat r.tickSeq), ("idle", .bool r.idle), ("stable", .bool r.stable),
    ("degrade_reason", .ofOption Degrade.toValue r.degrade), ("steps", .ofNat r.steps),
    ("urgent_steps", .ofNat r.urgentSteps), ("rounds", .ofNat r.rounds),
    ("units", .ofList (UnitReport.toValueWith patch) r.units), ("deferred", .ofList Key.toValue r.deferred),
    ("backlog", Event.pairValue r.backlog)]

def toValue (r : TickReport) : Value := r.toValueWith Patch.toValue

end TickReport

end Settle
