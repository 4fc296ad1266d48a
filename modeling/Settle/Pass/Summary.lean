/-
  Settle.Pass.Summary — what a pass reports: how it chose to run, and how it ended.
-/

import Settle.Plan.Cache
import Settle.Policy

namespace Settle

/-- Why a pass or a tick stopped short of stability. -/
inductive Degrade where
  /-- A step cap was spent. -/
  | cycleDetected
  /-- The time budget was spent. -/
  | budgetSteps
  /-- A derive function failed and the pass was rolled back. -/
  | deriveFailed
  deriving DecidableEq, Repr

namespace Degrade

def name : Degrade → String
  | .cycleDetected => "cycle_detected"
  | .budgetSteps => "budget_steps"
  | .deriveFailed => "runtime_error"

def toValue (d : Degrade) : Value := .str d.name

end Degrade

/-- What a pass ran. -/
inductive Executed where
  | full
  | dirty
  /-- Nothing was dirty. -/
  | noop
  deriving DecidableEq, Repr

def Executed.name : Executed → String
  | .full => "full"
  | .dirty => "dirty"
  | .noop => "noop"

/-- Why a pass ran the way it did. -/
inductive Decision where
  /-- The mode is fixed. -/
  | moduleOverride
  /-- The first transaction of the instance. -/
  | coldStart
  | dirtyAll
  /-- The roots are most of the paths. -/
  | nearFull
  /-- The plan ran out of its budget. -/
  | planCutoff
  /-- The plan is most of the scope. -/
  | planNearFull
  | cacheHit
  | cacheMiss
  /-- Work left behind was taken up. -/
  | carried
  deriving DecidableEq, Repr

def Decision.name : Decision → String
  | .moduleOverride => "module_override"
  | .coldStart => "cold_start"
  | .dirtyAll => "dirty_all"
  | .nearFull => "near_full"
  | .planCutoff => "plan_cutoff"
  | .planNearFull => "plan_near_full"
  | .cacheHit => "cache_hit"
  | .cacheMiss => "cache_miss"
  | .carried => "carried"

structure Summary where
  module : String
  txnSeq : Nat
  scope : Scope
  requested : Policy.Mode
  executed : Executed
  reasons : List Decision
  dirty : DirtySummary
  /-- Steps of the scope. -/
  stepCount : Nat
  planLen : Nat
  executedSteps : Nat
  changedSteps : Nat
  rounds : Nat
  degrade : Option Degrade
  /-- A derive failure. -/
  error : Option String
  cache : Option PlanCacheStats
  /-- How many of the slowest steps are listed. -/
  topSteps : Nat
  deriving DecidableEq, Repr

namespace Summary

/-- A pass is stable when nothing made it fall short. -/
def stable (s : Summary) : Bool := s.degrade.isNone

def fields (s : Summary) : List (String × Value) :=
  [("module", .str s.module), ("txn_seq", .ofNat s.txnSeq), ("scope", .str s.scope.name),
    ("requested_mode", .str s.requested.name), ("executed_mode", .str s.executed.name),
    ("reasons", .ofList (.str ·.name) s.reasons), ("dirty", s.dirty.toValue), ("step_count", .ofNat s.stepCount),
    ("plan_len", .ofNat s.planLen), ("executed_steps", .ofNat s.executedSteps),
    ("changed_steps", .ofNat s.changedSteps), ("rounds", .ofNat s.rounds), ("stable", .bool s.stable),
    ("degrade_reason", .ofOption Degrade.toValue s.degrade), ("error", .ofOption .str s.error),
    ("cache", .ofOption PlanCacheStats.toValue s.cache)]
    ++ if s.topSteps = 0 then [] else [("top_steps", .ofNat s.topSteps)]

def toValue (s : Summary) : Value := .record s.fields

end Summary

end Settle
