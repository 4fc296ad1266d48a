/-
  Settle.Policy.Convergence — how passes over the derived fields run.
-/

import Settle.Policy.Layer
import Settle.Value.Record

namespace Settle.Policy

/-- How a pass chooses between all steps of its scope and those a change can reach. -/
inductive Mode where
  /-- Decide from the dirty set. -/
  | auto
  /-- Every step. -/
  | full
  /-- Only what the dirty roots reach. -/
  | dirty
  deriving DecidableEq, Repr

def Mode.table : List (String × Mode) := [("auto", .auto), ("full", .full), ("dirty", .dirty)]

def Mode.name : Mode → String
  | .auto => "auto"
  | .full => "full"
  | .dirty => "dirty"

/-- Whether deferred steps wait in the lane, for how long at rest and at most. -/
structure TimeSlicing where
  enabled : Bool
  debounceMs : Nat
  maxLagMs : Nat
  deriving DecidableEq, Repr

/-- Effective settings of passes. -/
structure Convergence where
  mode : Mode
  /-- Time budget of one pass. -/
  budgetMs : Nat
  /-- Time budget for a plan, in milliseconds. -/
  decisionBudgetMs : Double
  /-- Most steps of one pass; taken from the size of the scope when unset. -/
  stepCap : Option Nat
  timeSlicing : TimeSlicing
  deriving DecidableEq

structure TimeSlicingPatch where
  enabled : Option Bool
  debounceMs : Option Nat
  maxLagMs : Option Nat
  deriving DecidableEq, Repr

structure ConvergencePatch where
  mode : Option Mode
  budgetMs : Option Nat
  decisionBudgetMs : Option Double
  stepCap : Option Nat
  timeSlicing : Option TimeSlicingPatch
  deriving DecidableEq

namespace TimeSlicing

def builtin : TimeSlicing := ⟨false, 16, 200⟩

def toValue (t : TimeSlicing) : Value :=
  .record [("enabled", .bool t.enabled), ("debounce_ms", .ofNat t.debounceMs), ("max_lag_ms", .ofNat t.maxLagMs)]

end TimeSlicing

namespace TimeSlicingPatch

def empty : TimeSlicingPatch := ⟨none, none, none⟩

def sets (p : TimeSlicingPatch) : Bool := p.enabled.isSome || p.debounceMs.isSome || p.maxLagMs.isSome

def apply (p : TimeSlicingPatch) (t : TimeSlicing) : TimeSlicing :=
  ⟨p.enabled.getD t.enabled, p.debounceMs.getD t.debounceMs, p.maxLagMs.getD t.maxLagMs⟩

def ofValue? (v : Value) : Option TimeSlicingPatch := do
  let l ← v.openRecord? ["enabled", "debounce_ms", "max_lag_ms"]
  return ⟨← l.option "enabled" Value.bool?, ← l.option "debounce_ms" Value.nat?, ← l.option "max_lag_ms" Value.nat?⟩

end TimeSlicingPatch

namespace Convergence

/-- The least step cap that a scope's size gives. -/
def minStepCap : Nat := 64

def builtin : Convergence where
  mode := .auto
  budgetMs := 200
  decisionBudgetMs := ⟨0x3fe0000000000000, by decide⟩
  stepCap := none
  timeSlicing := .builtin

/-- The step cap for a scope of this many steps: as set, or eight times the scope; one
at least. -/
def stepCapFor (c : Convergence) (steps : Nat) : Nat := max 1 (c.stepCap.getD (max minStepCap (steps * 8)))

/-- The whole number nearest to a fraction, a half going to the even neighbour. -/
def nearest (num den : Nat) : Nat :=
  let below := num / den
  let twice := 2 * (num % den)
  if den < twice ∨ (twice = den ∧ below % 2 = 1) then below + 1 else below

/-- The decision budget in whole nanoseconds; none of it below zero. The seconds come
first, as the double nearest to a thousandth of the milliseconds: 53 bits of it are
kept. -/
def decisionBudgetNs (c : Convergence) : Nat :=
  let ms := c.decisionBudgetMs
  if ms.negative then 0
  else
    let kept := if ms.mantissa <<< 10 < 1000 <<< 53 then 10 else 9
    let seconds := nearest (ms.mantissa <<< kept) 1000
    let exponent := ms.exponent - kept
    nearest ((seconds <<< exponent.toNat) * 1000000000) (1 <<< (-exponent).toNat)

def toValue (c : Convergence) : Value :=
  .record [("mode", .str c.mode.name), ("budget_ms", .ofNat c.budgetMs),
    ("decision_budget_ms", .double c.decisionBudgetMs), ("step_cap", .ofOption .ofNat c.stepCap),
    ("time_slicing", c.timeSlicing.toValue)]

end Convergence

namespace ConvergencePatch

def empty : ConvergencePatch := ⟨none, none, none, none, none⟩

def sets (p : ConvergencePatch) : Bool :=
  p.mode.isSome || p.budgetMs.isSome || p.decisionBudgetMs.isSome || p.stepCap.isSome
    || (p.timeSlicing.getD .empty).sets

def apply (p : ConvergencePatch) (c : Convergence) : Convergence where
  mode := p.mode.getD c.mode
  budgetMs := p.budgetMs.getD c.budgetMs
  decisionBudgetMs := p.decisionBudgetMs.getD c.decisionBudgetMs
  stepCap := p.stepCap <|> c.stepCap
  timeSlicing := (p.timeSlicing.getD .empty).apply c.timeSlicing

def ofValue? (v : Value) : Option ConvergencePatch := do
  let l ← v.openRecord? ["mode", "budget_ms", "decision_budget_ms", "step_cap", "time_slicing"]
  return {
    mode := ← l.option "mode" (Value.variant? Mode.table)
    budgetMs := ← l.option "budget_ms" Value.nat?
    decisionBudgetMs := ← l.option "decision_budget_ms" Value.double?
    stepCap := ← l.option "step_cap" Value.nat?
    timeSlicing := ← l.option "time_slicing" TimeSlicingPatch.ofValue? }

end ConvergencePatch

end Settle.Policy
