/-
  Settle.Proofs.Told — what is told of a pass, a unit or a tick has no part in it (see
  `Settle.Diagnostics`).

  Two passes, units or ticks are alike if they differ in their diagnostics alone: in what
  is reported, in the sink, in what it kept, and in which keys it was told of. Whatever
  their diagnostics are, a pass (`Executor.passUnder_alike`), a unit
  (`Instance.applyUnder_alike`) and a tick (`Tick.run_alike`) are alike afterwards if they
  were before. Of a pass, its summary may tell more or less of the roots and of the steps
  that took longest.
-/

import Settle.Tick
import Settle.Proofs.Tracing

namespace Settle

/-! ## Passes -/

namespace Executor

/-- The passes differ in what was told of them. -/
structure Passed.Alike (p p' : Passed) : Prop where
  executor : p'.executor = p.executor
  context : p'.context = p.context
  calls : p'.calls = p.calls
  changed : p'.outcome.changed = p.outcome.changed
  carried : p'.outcome.carried = p.outcome.carried
  degrade : p'.outcome.degrade = p.outcome.degrade
  steps : p'.outcome.summary.executedSteps = p.outcome.summary.executedSteps

theorem passUnder_alike (late : Nat → Bool) (e : Executor) (ctx : Context) (req : Request) (d d' : Diagnostics) :
    (e.passUnder late ctx req d).Alike (e.passUnder late ctx req d') := by
  rw [passUnder_eq, passUnder_eq]
  split
  · exact ⟨rfl, rfl, rfl, rfl, rfl, rfl, rfl⟩
  · exact ⟨rfl, rfl, rfl, rfl, rfl, rfl, rfl⟩

end Executor

/-! ## Units -/

namespace Instance

open Executor (Outcome)

/-- The runs differ in their diagnostics. -/
def Run.Alike (r r' : Run) : Prop := ∃ d, r' = { r with diagnostics := d }

namespace Run

variable {r r' : Run}

theorem Alike.refl (r : Run) : r.Alike r := ⟨r.diagnostics, rfl⟩

theorem Alike.leave (h : r.Alike r') (scope : Scope) (carried : Option Carried) :
    (r.leave scope carried).Alike (r'.leave scope carried) := by
  obtain ⟨d, rfl⟩ := h
  refine ⟨d, ?_⟩
  unfold Run.leave
  dsimp only
  split
  · split <;> rfl
  · split <;> rfl

theorem Alike.inst (h : r.Alike r') : r'.inst = r.inst := by
  obtain ⟨d, rfl⟩ := h
  rfl

theorem Alike.context (h : r.Alike r') : r'.context = r.context := by
  obtain ⟨d, rfl⟩ := h
  rfl

theorem Alike.withContext (h : r.Alike r') (c : Context) : Alike { r with context := c } { r' with context := c } := by
  obtain ⟨d, rfl⟩ := h
  exact ⟨d, rfl⟩

/-- Neither pass ran, or both did and changed the same fields. -/
def PassAlike (x x' : Option Outcome × Run) : Prop :=
  ∃ s s', s.Alike s' ∧
    (x = (none, s) ∧ x' = (none, s') ∨ ∃ o o', o'.changed = o.changed ∧ x = (some o, s) ∧ x' = (some o', s'))

theorem PassAlike.run {x x' : Option Outcome × Run} (h : PassAlike x x') : x.2.Alike x'.2 := by
  obtain ⟨s, s', hs, ⟨rfl, rfl⟩ | ⟨o, o', -, rfl, rfl⟩⟩ := h
  · exact hs
  · exact hs

/-- The run with a pass taken in. -/
def absorb (r : Run) (scope : Scope) (p : Executor.Passed) : Run :=
  let ran := p.outcome.summary.executedSteps
  let counted := { r.report with passes := r.report.passes + 1, steps := r.report.steps + ran }
  let r := { r with
    inst := { r.inst with executor := p.executor }
    context := p.context
    diagnostics := p.diagnostics
    calls := r.calls ++ p.calls
    budget := r.budget.map (· - ran)
    report := match p.outcome.degrade with
      | some d => counted.fallShort d
      | none => counted }
  if scope = .deferred then
    { r with deferred := { r.deferred with carried := Carried.merge? r.deferred.carried p.outcome.carried } }
  else { r with carried := Carried.merge? r.carried p.outcome.carried }

theorem pass_eq_absorb (r : Run) (scope : Scope) (carried : Option Carried) :
    r.pass scope carried =
      if r.budget = some 0 then (none, r.leave scope carried)
      else
        let p := r.inst.executor.passUnder (r.clock r.report.passes) r.context ⟨scope, r.config scope, carried⟩
          r.diagnostics
        (some p.outcome, r.absorb scope p) := rfl

theorem Alike.absorb (h : r.Alike r') (scope : Scope) {p p' : Executor.Passed} (hp : p.Alike p') :
    (r.absorb scope p).Alike (r'.absorb scope p') := by
  obtain ⟨d, rfl⟩ := h
  refine ⟨p'.diagnostics, ?_⟩
  have hdegrade : p'.outcome.degrade = p.outcome.degrade := hp.degrade
  unfold Run.absorb
  rw [hp.executor, hp.context, hp.calls, hp.carried, hp.steps, hdegrade]
  dsimp only
  split <;> rfl

theorem Alike.pass (h : r.Alike r') (scope : Scope) (carried : Option Carried) :
    PassAlike (r.pass scope carried) (r'.pass scope carried) := by
  have hleave := h.leave scope carried
  have habsorb := fun p p' => @Alike.absorb r r' h scope p p'
  obtain ⟨d, rfl⟩ := h
  rw [pass_eq_absorb, pass_eq_absorb]
  dsimp only
  split
  · exact ⟨_, _, hleave, .inl ⟨rfl, rfl⟩⟩
  · have hp := Executor.passUnder_alike (r.clock r.report.passes) r.inst.executor r.context
      ⟨scope, r.config scope, carried⟩ r.diagnostics d
    exact ⟨_, _, habsorb _ _ hp, .inr ⟨_, _, hp.changed, rfl, rfl⟩⟩

theorem Alike.tellLane (h : r.Alike r') (ev : Evidence) : (r.tellLane ev).Alike (r'.tellLane ev) := by
  obtain ⟨d, rfl⟩ := h
  exact ⟨_, rfl⟩

theorem Alike.putBy (h : r.Alike r') (dirty : DirtySet) : (r.putBy dirty).Alike (r'.putBy dirty) := by
  obtain ⟨d, rfl⟩ := h
  refine ⟨d, ?_⟩
  unfold Run.putBy
  dsimp only
  split <;> rfl

theorem Alike.settleBack (h : r.Alike r') (changed : List Path) :
    (r.settleBack changed).Alike (r'.settleBack changed) := by
  obtain ⟨s, s', hs, hran⟩ := (h.withContext { r.context with dirty := .ofPaths changed }).pass .immediate none
  have haffects : r'.inst.executor.affects .immediate (.ofPaths changed)
      = r.inst.executor.affects .immediate (.ofPaths changed) := by rw [h.inst]
  unfold Run.settleBack
  dsimp only
  rw [haffects, h.context]
  split
  · exact h
  · rcases hran with ⟨hx, hx'⟩ | ⟨o, o', hchanged, hx, hx'⟩
    · rw [hx, hx']
      exact hs
    · rw [hx, hx']
      dsimp only
      rw [hchanged]
      exact hs.putBy _

theorem Alike.takeUp (h : r.Alike r') (work : Deferred) : (r.takeUp work).Alike (r'.takeUp work) := by
  obtain ⟨d, rfl⟩ := h
  exact ⟨_, rfl⟩

theorem Alike.runDeferred (h : r.Alike r') (work : Deferred) : (r.runDeferred work).Alike (r'.runDeferred work) := by
  obtain ⟨s, s', hs, hran⟩ := (h.takeUp work).pass .deferred work.carried
  unfold Run.runDeferred
  rcases hran with ⟨hx, hx'⟩ | ⟨o, o', hchanged, hx, hx'⟩
  · rw [hx, hx']
    exact hs
  · rw [hx, hx']
    dsimp only
    rw [hchanged]
    exact hs.settleBack _

theorem Alike.dueNow (h : r.Alike r') (mode : DeferredMode) (handed : Option Deferred) (work : Deferred) (now : Time) :
    (r'.dueNow mode handed work now).1 = (r.dueNow mode handed work now).1
      ∧ (r.dueNow mode handed work now).2.Alike (r'.dueNow mode handed work now).2 := by
  obtain ⟨d, rfl⟩ := h
  unfold Run.dueNow
  dsimp only
  split
  · exact ⟨rfl, d, rfl⟩
  · exact ⟨rfl, d, rfl⟩
  · exact ⟨rfl, d, rfl⟩
  · exact ⟨rfl, d, rfl⟩
  · split <;> exact ⟨rfl, d, rfl⟩

theorem Alike.afterImmediate (h : r.Alike r') (mode : DeferredMode) (handed : Option Deferred) (fed : DirtySet)
    (now : Time) : (r.afterImmediate mode handed fed now).Alike (r'.afterImmediate mode handed fed now) := by
  have hwork : r'.workFor handed fed = r.workFor handed fed := by
    obtain ⟨d, rfl⟩ := h
    rfl
  obtain ⟨hdue, hr⟩ := h.dueNow mode handed (r.workFor handed fed) now
  unfold Run.afterImmediate
  rw [hwork]
  dsimp only
  split
  · exact h
  generalize r.dueNow mode handed (r.workFor handed fed) now = x at hdue hr
  generalize r'.dueNow mode handed (r.workFor handed fed) now = x' at hdue hr
  obtain ⟨work, s⟩ := x
  obtain ⟨work', s'⟩ := x'
  cases hdue
  cases work with
  | none => exact hr
  | some work => exact hr.runDeferred work

theorem Alike.followUps (h : r.Alike r') (now : Time) : r'.followUps now = r.followUps now := by
  obtain ⟨d, rfl⟩ := h
  rfl

end Run

/-- The instances are the same after units that differ in their diagnostics. -/
def Applied.Alike (a a' : Applied) : Prop := ∃ d, a' = { a with diagnostics := d }

theorem begin_alike (clock : Nat → Nat → Bool) (i : Instance) (u : WorkUnit) (d d' : Diagnostics) (budget : Option Nat) :
    (i.begin clock u d budget).Alike (i.begin clock u d' budget) := by
  unfold begin
  dsimp only
  split
  · exact ⟨_, rfl⟩
  · exact ⟨_, rfl⟩

theorem converge_alike (i : Instance) (u : WorkUnit) (now : Time) {r r' : Run} (h : r.Alike r') :
    (i.converge u now r).Alike (i.converge u now r') := by
  unfold converge
  split
  · exact (h.pass .all _).run
  · obtain ⟨s, s', hs, ⟨hx, hx'⟩ | ⟨o, o', hchanged, hx, hx'⟩⟩ := h.pass .immediate u.change.carried
    · rw [hx, hx', h.context]
      exact hs.afterImmediate ..
    · rw [hx, hx', h.context]
      dsimp only
      rw [hchanged]
      exact hs.afterImmediate ..

theorem applyUnder_alike (clock : Nat → Nat → Bool) (i : Instance) (u : WorkUnit) (now : Time) (d d' : Diagnostics)
    (budget : Option Nat) : (i.applyUnder clock u now d budget).Alike (i.applyUnder clock u now d' budget) := by
  have hdone := i.converge_alike u now (i.begin_alike clock u d d' budget)
  unfold applyUnder
  obtain ⟨d'', hdone⟩ := hdone
  rw [hdone]
  exact ⟨d'', rfl⟩

theorem apply_alike (i : Instance) (u : WorkUnit) (now : Time) (d d' : Diagnostics) (budget : Option Nat) :
    (i.apply u now d budget).Alike (i.apply u now d' budget) := applyUnder_alike ..

end Instance

/-! ## Ticks -/

namespace Tick

variable {t t' : Running} {f : Frame}

/-- The ticks differ in their diagnostics. -/
def Running.Alike (t t' : Running) : Prop := ∃ d, t' = { t with diagnostics := d }

namespace Running

theorem Alike.putOff (h : t.Alike t') (f : Frame) (key : Key) : (t.putOff f key).Alike (t'.putOff f key) := by
  obtain ⟨d, rfl⟩ := h
  exact ⟨_, rfl⟩

theorem Alike.accept (h : t.Alike t') (f : Frame) (key : Key) (priority : Priority) (budget : Option Nat) :
    (t.accept f key priority budget).Alike (t'.accept f key priority budget) := by
  obtain ⟨d, rfl⟩ := h
  unfold accept
  dsimp only
  split
  · exact ⟨d, rfl⟩
  · rename_i i _
    split
    · exact ⟨d, rfl⟩
    · rename_i u j _
      obtain ⟨d', ha⟩ := j.apply_alike u f.now t.diagnostics d budget
      rw [ha]
      exact ⟨d', rfl⟩

theorem Alike.offer (h : t.Alike t') (f : Frame) (turn : Key × Priority) :
    (Running.offer f t turn).Alike (Running.offer f t' turn) := by
  obtain ⟨key, priority⟩ := turn
  have hreport : t'.report = t.report := by
    obtain ⟨d, rfl⟩ := h
    rfl
  cases priority with
  | normal =>
    simp only [Running.offer, hreport]
    split
    · exact h.putOff f key
    · exact h.accept f key .normal _
  | low =>
    simp only [Running.offer, hreport]
    split
    · obtain ⟨d, rfl⟩ := h
      exact ⟨d, rfl⟩
    · exact h.accept f key .low none

theorem Alike.offers (h : t.Alike t') (f : Frame) (turns : List (Key × Priority)) :
    (turns.foldl (Running.offer f) t).Alike (turns.foldl (Running.offer f) t') :=
  List.foldl_rel h fun turn _ _ _ h => h.offer f turn

theorem Alike.rounds (h : t.Alike t') (f : Frame) (n : Nat) : (rounds f n t).Alike (rounds f n t') := by
  induction n generalizing t t' with
  | zero => exact h
  | succ n ih =>
    have hready : t'.store.ready t'.skip = t.store.ready t.skip := by
      obtain ⟨d, rfl⟩ := h
      rfl
    have hcounted : Running.Alike { t with report := { t.report with rounds := t.report.rounds + 1 } }
        { t' with report := { t'.report with rounds := t'.report.rounds + 1 } } := by
      obtain ⟨d, rfl⟩ := h
      exact ⟨d, rfl⟩
    unfold Running.rounds
    rw [hready]
    split
    · exact h
    · exact ih (hcounted.offers f _)

theorem Alike.close (h : t.Alike t') : (t.close f).Alike (t'.close f) := by
  obtain ⟨d, rfl⟩ := h
  unfold Running.close
  dsimp only
  split
  · split <;> exact ⟨_, rfl⟩
  · split <;> exact ⟨_, rfl⟩

end Running

theorem run_alike (f : Frame) (last : Nat) (store : Store) (d d' : Diagnostics) :
    (run f last store d).Alike (run f last store d') := by
  unfold run
  dsimp only
  split
  · exact ⟨d', rfl⟩
  · exact (Running.Alike.rounds ⟨_, rfl⟩ f _).close

end Tick

end Settle
