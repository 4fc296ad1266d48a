/-
  Settle.Policy — the configuration of an engine and the policies it gives a module.
-/

import Settle.Policy.Convergence
import Settle.Policy.Lanes
import Settle.Policy.Concurrency

namespace Settle.Policy

/-- One layer of settings for a module; a module's own options have the same shape. -/
structure Overrides where
  convergence : ConvergencePatch
  lanes : LanePatch
  concurrency : ConcurrencyPatch
  deriving DecidableEq

namespace Overrides

def empty : Overrides := ⟨.empty, .empty, .empty⟩

instance : Inhabited Overrides := ⟨empty⟩

def ofValue? (v : Value) : Option Overrides := do
  let l ← v.openRecord? ["converge", "lanes", "concurrency"]
  return {
    convergence := ← l.get "converge" ConvergencePatch.ofValue? .empty
    lanes := ← l.get "lanes" LanePatch.ofValue? .empty
    concurrency := ← l.get "concurrency" ConcurrencyPatch.ofValue? .empty }

end Overrides

/-- Limits of one tick. -/
structure TickLimits where
  /-- Units accepted. -/
  maxSteps : Nat
  /-- Steps that urgent units may run. -/
  urgentStepCap : Nat
  /-- Rounds in which work queued during the tick is taken up. -/
  maxDrainRounds : Nat
  /-- Sample rate of the notices about ticks that fell short; none when unset. -/
  telemetryRate : Option Double
  deriving DecidableEq

namespace TickLimits

def builtin : TickLimits := ⟨64, 512, 8, none⟩

def ofValue? (v : Value) : Option TickLimits := do
  let l ← v.openRecord? ["max_steps", "urgent_step_cap", "max_drain_rounds", "telemetry_sample_rate"]
  return {
    maxSteps := ← l.get "max_steps" Value.nat? builtin.maxSteps
    urgentStepCap := ← l.get "urgent_step_cap" Value.nat? builtin.urgentStepCap
    maxDrainRounds := ← l.get "max_drain_rounds" Value.nat? builtin.maxDrainRounds
    telemetryRate := ← l.option "telemetry_sample_rate" Value.double? }

def toValue (t : TickLimits) : Value :=
  .record [("max_steps", .ofNat t.maxSteps), ("urgent_step_cap", .ofNat t.urgentStepCap),
    ("max_drain_rounds", .ofNat t.maxDrainRounds), ("telemetry_sample_rate", .ofOption .double t.telemetryRate)]

end TickLimits

/-- How much is reported. -/
inductive Verbosity where
  /-- Handler failures alone. -/
  | off
  /-- Summaries. -/
  | light
  /-- Summaries with the detail of steps. -/
  | full
  /-- Summaries, with the detail of steps for one transaction in so many. -/
  | sampled
  deriving DecidableEq, Repr

def Verbosity.table : List (String × Verbosity) :=
  [("off", .off), ("light", .light), ("full", .full), ("sampled", .sampled)]

def Verbosity.name : Verbosity → String
  | .off => "off"
  | .light => "light"
  | .full => "full"
  | .sampled => "sampled"

structure Reporting where
  level : Verbosity
  /-- The sampling period. -/
  sampleEvery : Nat
  /-- Roots and steps listed in full detail. -/
  topK : Nat
  deriving DecidableEq, Repr

namespace Reporting

def builtin : Reporting := ⟨.off, 32, 3⟩

def ofValue? (v : Value) : Option Reporting := do
  let l ← v.openRecord? ["level", "sample_every_n", "top_k"]
  return {
    level := ← l.get "level" (Value.variant? Verbosity.table) builtin.level
    sampleEvery := ← l.get "sample_every_n" Value.nat? builtin.sampleEvery
    topK := ← l.get "top_k" Value.nat? builtin.topK }

def toValue (r : Reporting) : Value :=
  .record [("level", .str r.level.name), ("sample_every_n", .ofNat r.sampleEvery), ("top_k", .ofNat r.topK)]

end Reporting

/-- The configuration of an engine. -/
structure Config where
  tick : TickLimits
  reporting : Reporting
  /-- Overrides for every module. -/
  defaults : Overrides
  /-- Overrides by module. -/
  modules : List (String × Overrides)

namespace Config

def builtin : Config := ⟨.builtin, .builtin, .empty, []⟩

instance : Inhabited Config := ⟨builtin⟩

def modules? : Value → Option (List (String × Overrides))
  | .obj fs => fs.mapM fun (k, v) => (Overrides.ofValue? v).map fun o => (k, o)
  | _ => none

def ofValue? (v : Value) : Option Config := do
  let l ← v.openRecord? ["tick", "diagnostics", "defaults", "modules"]
  return {
    tick := ← l.get "tick" TickLimits.ofValue? .builtin
    reporting := ← l.get "diagnostics" Reporting.ofValue? .builtin
    defaults := ← l.get "defaults" Overrides.ofValue? .empty
    modules := ← l.get "modules" modules? [] }

end Config

/-- The policies in force for one instance. -/
structure Policies where
  convergence : Resolved Convergence
  lanes : Lanes
  concurrency : Concurrency

namespace Policies

/-- Resolve every policy of a module. -/
def resolve (config : Config) (moduleId : String) (options : Overrides) (provider : Option Overrides) : Policies :=
  let layers : Layers Overrides := ⟨some config.defaults, config.modules.lookup moduleId, provider⟩
  { convergence := Policy.resolve Convergence.builtin ConvergencePatch.apply ConvergencePatch.sets
      options.convergence (layers.map (·.convergence))
    lanes := Lanes.resolve options.lanes (layers.map (·.lanes))
    concurrency := Concurrency.resolve options.concurrency (layers.map (·.concurrency)) }

/-- Debounce window and staleness bound of the deferred lane. The time slicing sets
them, an active lane policy can only widen them, and the bound is never below the window. -/
def laneTiming (p : Policies) : Nat × Nat :=
  let ts := p.convergence.value.timeSlicing
  let debounce := if p.lanes.active then max ts.debounceMs p.lanes.settings.debounceMs else ts.debounceMs
  let lag := if p.lanes.active then max ts.maxLagMs p.lanes.settings.maxLagMs else ts.maxLagMs
  (debounce, max lag debounce)

def toValue (p : Policies) : Value :=
  .record [
    ("converge", .record [("value", p.convergence.value.toValue), ("config_scope", p.convergence.layer.toValue)]),
    ("lanes", p.lanes.toValue), ("concurrency", p.concurrency.toValue)]

end Policies

end Settle.Policy
