/-
  Settle.Pass.Decide — whether a pass runs its whole scope or a plan.

  In mode `auto` a pass runs every step for the first transaction, when everything is
  dirty, when the roots are most of the paths, when the plan is most of the scope, or
  when there was no time to plan. Plans without forced steps are kept.
-/

import Settle.Pass.Summary
import Settle.Plan.Reach

namespace Settle.Pass

/-- How a pass will run, why, and the plan cache after the choice. -/
structure Choice where
  executed : Executed
  steps : List StepId
  reasons : List Decision
  stats : Option PlanCacheStats
  cache : PlanCache

/-- Roots, in thousandths of the paths, from which a plan is not worth making. -/
def nearFullShare (scopeSize : Nat) : Nat :=
  if 1536 ≤ scopeSize then 650
  else if 1024 ≤ scopeSize then 700
  else if 512 ≤ scopeSize then 750
  else 900

/-- Whether a decision budget has passed by the first look: it is a nanosecond. -/
def decisionExpired (config : Policy.Convergence) : Bool := config.decisionBudgetNs = 1

/-- A plan kept or made: the plan, unless cut off, with reasons and the cache after it. -/
def plan (w : Wiring) (cache : PlanCache) (scope : Scope) (dirty : DirtyIds) (forced : List StepId) (expired : Bool) :
    Option (List StepId) × List Decision × Option PlanCacheStats × PlanCache :=
  if forced.isEmpty then
    let key : PlanKey := ⟨scope, dirty.ids⟩
    match cache.get key with
    | (some steps, cache) => (some steps, [.cacheHit], some cache.stats, cache)
    | (none, cache) =>
      match Plan.compute w scope dirty.ids [] expired with
      | none => (none, [.cacheMiss], none, cache)
      | some steps =>
        let cache := cache.insert key steps
        (some steps, [.cacheMiss], some cache.stats, cache)
  else (Plan.compute w scope dirty.ids forced expired, [], none, cache)

/-- Choose between every step of the scope and a plan. -/
def decide (w : Wiring) (cache : PlanCache) (txnSeq : Nat) (scope : Scope) (config : Policy.Convergence)
    (dirty : DirtyIds) (forced : List StepId) : Choice :=
  let full (reasons : List Decision) (stats : Option PlanCacheStats) (cache : PlanCache) : Choice :=
    ⟨.full, w.order scope, reasons, stats, cache⟩
  let auto := config.mode = .auto
  let fixed : List Decision := if auto then [] else [.moduleOverride]
  if config.mode = .full then full fixed none cache
  else if auto ∧ txnSeq ≤ 1 then full [.coldStart] none cache
  else if dirty.all.isSome then full (fixed ++ [.dirtyAll]) none cache
  else if auto ∧ nearFullShare (w.scopeSize scope) * max 1 w.pathCount ≤ 1000 * dirty.ids.length then
    full [.nearFull] none cache
  else
    match plan w cache scope dirty forced (auto && decisionExpired config) with
    | (none, reasons, stats, cache) => full (fixed ++ reasons ++ [.planCutoff]) stats cache
    | (some steps, reasons, stats, cache) =>
      if auto ∧ 9 * w.scopeSize scope ≤ 10 * steps.length then
        full (fixed ++ reasons ++ [.planNearFull]) stats cache
      else ⟨.dirty, steps, fixed ++ reasons, stats, cache⟩

end Settle.Pass
