/-
  Settle.Policy.Lanes — how deferred work comes back to the queue.

  With lanes on, a deferred flush is queued at low priority and urgent work overtakes
  it. An override mode turns lanes off and leaves one queue in order of arrival.
-/

import Settle.Policy.Layer
import Settle.Value.Record

namespace Settle.Policy

/-- Deferred work forced inline. -/
inductive Override where
  /-- Without lane evidence. -/
  | forcedOff
  /-- With lane evidence. -/
  | forcedSync
  deriving DecidableEq, Repr

def Override.table : List (String × Override) := [("forced_off", .forcedOff), ("forced_sync", .forcedSync)]

def Override.name : Override → String
  | .forcedOff => "forced_off"
  | .forcedSync => "forced_sync"

/-- When a slice of deferred work yields. -/
inductive Yielding where
  | baseline
  | inputPending
  deriving DecidableEq, Repr

def Yielding.table : List (String × Yielding) := [("baseline", .baseline), ("input_pending", .inputPending)]

def Yielding.name : Yielding → String
  | .baseline => "baseline"
  | .inputPending => "input_pending"

/-- One queue in order of arrival, or urgent work before the rest. -/
inductive QueueMode where
  | fifo
  | lanes
  deriving DecidableEq, Repr

def QueueMode.name : QueueMode → String
  | .fifo => "fifo"
  | .lanes => "lanes"

structure LaneSettings where
  enabled : Bool
  overrideMode : Option Override
  budgetMs : Nat
  /-- Least debounce window of the lane. -/
  debounceMs : Nat
  /-- Least staleness bound of the lane. -/
  maxLagMs : Nat
  /-- Whether signals that arrive during a wait are merged. -/
  allowCoalesce : Bool
  yielding : Yielding
  deriving DecidableEq, Repr

structure LanePatch where
  enabled : Option Bool
  overrideMode : Option Override
  budgetMs : Option Nat
  debounceMs : Option Nat
  maxLagMs : Option Nat
  allowCoalesce : Option Bool
  yielding : Option Yielding
  deriving DecidableEq, Repr

namespace LaneSettings

def builtin : LaneSettings := ⟨true, none, 1, 0, 50, true, .baseline⟩

def toValue (s : LaneSettings) : Value :=
  .record [("enabled", .bool s.enabled), ("override_mode", .ofOption (.str ·.name) s.overrideMode),
    ("budget_ms", .ofNat s.budgetMs), ("debounce_ms", .ofNat s.debounceMs), ("max_lag_ms", .ofNat s.maxLagMs),
    ("allow_coalesce", .bool s.allowCoalesce), ("yield_strategy", .str s.yielding.name)]

end LaneSettings

namespace LanePatch

def empty : LanePatch := ⟨none, none, none, none, none, none, none⟩

def sets (p : LanePatch) : Bool :=
  p.enabled.isSome || p.overrideMode.isSome || p.budgetMs.isSome || p.debounceMs.isSome || p.maxLagMs.isSome
    || p.allowCoalesce.isSome || p.yielding.isSome

def apply (p : LanePatch) (s : LaneSettings) : LaneSettings where
  enabled := p.enabled.getD s.enabled
  overrideMode := p.overrideMode <|> s.overrideMode
  budgetMs := p.budgetMs.getD s.budgetMs
  debounceMs := p.debounceMs.getD s.debounceMs
  maxLagMs := p.maxLagMs.getD s.maxLagMs
  allowCoalesce := p.allowCoalesce.getD s.allowCoalesce
  yielding := p.yielding.getD s.yielding

def ofValue? (v : Value) : Option LanePatch := do
  let l ← v.openRecord? ["enabled", "override_mode", "budget_ms", "debounce_ms", "max_lag_ms", "allow_coalesce",
    "yield_strategy"]
  return {
    enabled := ← l.option "enabled" Value.bool?
    overrideMode := ← l.option "override_mode" (Value.variant? Override.table)
    budgetMs := ← l.option "budget_ms" Value.nat?
    debounceMs := ← l.option "debounce_ms" Value.nat?
    maxLagMs := ← l.option "max_lag_ms" Value.nat?
    allowCoalesce := ← l.option "allow_coalesce" Value.bool?
    yielding := ← l.option "yield_strategy" (Value.variant? Yielding.table) }

end LanePatch

/-- The lane policy in force. -/
structure Lanes where
  settings : LaneSettings
  queueMode : QueueMode
  layer : Layer
  deriving DecidableEq, Repr

namespace Lanes

/-- Resolve the lane policy. An override mode turns lanes off. -/
def resolve (options : LanePatch) (layers : Layers LanePatch) : Lanes :=
  let r := Policy.resolve LaneSettings.builtin LanePatch.apply LanePatch.sets options layers
  if r.value.overrideMode.isSome then ⟨{ r.value with enabled := false }, .fifo, r.layer⟩
  else ⟨r.value, .lanes, r.layer⟩

/-- Whether deferred flushes enter the queue at low priority. -/
def active (l : Lanes) : Bool := l.settings.enabled && l.queueMode == .lanes

def toValue (l : Lanes) : Value :=
  .record [("policy", l.settings.toValue), ("queue_mode", .str l.queueMode.name), ("config_scope", l.layer.toValue)]

end Lanes

end Settle.Policy
