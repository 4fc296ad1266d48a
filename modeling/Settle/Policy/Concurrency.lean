/-
  Settle.Policy.Concurrency — how many handlers of a watcher run at once.

  An unbounded limit holds only where the resolved policy allows it; otherwise the
  bounded limit of the highest layer that gives one stays in force, and the limit that
  was asked for is reported beside it.
-/

import Settle.Policy.Layer
import Settle.Value.Record

namespace Settle.Policy

/-- The most handlers in flight. -/
inductive Limit where
  | bounded (n : Nat)
  | unbounded
  deriving DecidableEq, Repr

namespace Limit

/-- The number of permits, at least one; an unbounded limit has none. -/
def permits : Limit → Option Nat
  | .bounded n => some (max 1 n)
  | .unbounded => none

def toValue : Limit → Value
  | .bounded n => .ofNat n
  | .unbounded => .str "unbounded"

def ofValue? (v : Value) : Option Limit :=
  (v.nat?.map .bounded) <|> v.variant? [("unbounded", .unbounded)]

end Limit

/-- A backlog that is worth a warning. -/
structure Pressure where
  backlogCount : Nat
  backlogDurationMs : Nat
  deriving DecidableEq, Repr

namespace Pressure

def toValue (p : Pressure) : Value :=
  .record [("backlog_count", .ofNat p.backlogCount), ("backlog_duration_ms", .ofNat p.backlogDurationMs)]

def ofValue? (v : Value) : Option Pressure := do
  let l ← v.openRecord? ["backlog_count", "backlog_duration_ms"]
  return ⟨← l.need "backlog_count" Value.nat?, ← l.need "backlog_duration_ms" Value.nat?⟩

end Pressure

structure ConcurrencyPatch where
  limit : Option Limit
  capacity : Option Nat
  allowUnbounded : Option Bool
  pressure : Option Pressure
  warningCooldownMs : Option Nat
  deriving DecidableEq, Repr

namespace ConcurrencyPatch

def empty : ConcurrencyPatch := ⟨none, none, none, none, none⟩

def sets (p : ConcurrencyPatch) : Bool :=
  p.limit.isSome || p.capacity.isSome || p.allowUnbounded.isSome || p.pressure.isSome || p.warningCooldownMs.isSome

def ofValue? (v : Value) : Option ConcurrencyPatch := do
  let l ← v.openRecord? ["concurrency_limit", "lossless_backpressure_capacity", "allow_unbounded",
    "pressure_warning_threshold", "warning_cooldown_ms"]
  return {
    limit := ← l.option "concurrency_limit" Limit.ofValue?
    capacity := ← l.option "lossless_backpressure_capacity" Value.nat?
    allowUnbounded := ← l.option "allow_unbounded" Value.bool?
    pressure := ← l.option "pressure_warning_threshold" Pressure.ofValue?
    warningCooldownMs := ← l.option "warning_cooldown_ms" Value.nat? }

end ConcurrencyPatch

/-- The concurrency policy in force. -/
structure Concurrency where
  limit : Limit
  /-- The limit asked for by the highest layer that asks, and that layer. -/
  requested : Limit
  requestedLayer : Layer
  /-- Payloads a watcher's channel holds. -/
  capacity : Nat
  allowUnbounded : Bool
  pressure : Pressure
  warningCooldownMs : Nat
  layer : Layer
  deriving DecidableEq, Repr

namespace Concurrency

def builtin : Concurrency where
  limit := .bounded 16
  requested := .bounded 16
  requestedLayer := .builtin
  capacity := 4096
  allowUnbounded := false
  pressure := ⟨1000, 5000⟩
  warningCooldownMs := 30000
  layer := .builtin

/-- Lay one patch over the policy. Until the end of the resolution `limit` is the last
bounded limit. -/
def overlay (c : Concurrency) (layer : Layer) (p : ConcurrencyPatch) : Concurrency where
  limit := match p.limit with
    | some (.bounded n) => .bounded n
    | _ => c.limit
  requested := p.limit.getD c.requested
  requestedLayer := if p.limit.isSome then layer else c.requestedLayer
  capacity := p.capacity.getD c.capacity
  allowUnbounded := p.allowUnbounded.getD c.allowUnbounded
  pressure := p.pressure.getD c.pressure
  warningCooldownMs := p.warningCooldownMs.getD c.warningCooldownMs
  layer := if p.sets then layer else c.layer

def resolve (options : ConcurrencyPatch) (layers : Layers ConcurrencyPatch) : Concurrency :=
  let c := layers.toList.foldl (fun c (layer, p) => c.overlay layer p) (builtin.overlay .builtin options)
  { c with
    capacity := max 1 c.capacity
    limit := if c.requested = .unbounded ∧ c.allowUnbounded then .unbounded else c.limit }

def toValue (c : Concurrency) : Value :=
  .record [("concurrency_limit", c.limit.toValue), ("requested_concurrency_limit", c.requested.toValue),
    ("requested_scope", c.requestedLayer.toValue), ("lossless_backpressure_capacity", .ofNat c.capacity),
    ("allow_unbounded", .bool c.allowUnbounded), ("pressure_warning_threshold", c.pressure.toValue),
    ("warning_cooldown_ms", .ofNat c.warningCooldownMs), ("config_scope", c.layer.toValue)]

end Concurrency

end Settle.Policy
