/-
  Settle.Proofs.Resume — going on with carried work (see `Settle.Executor`).

  A pass that its step cap stopped hands back the steps it was still to run, and a
  resumption takes them up with no roots of its own. Take a scope where no step affects an
  earlier one.

    * A resumption that runs a plan begins with the first of these steps, so the plan gets
      shorter until a resumption is stable (`exists_stable`).
    * A resumption that runs its whole scope begins anew with the first step of the scope,
      runs what is settled already up to the same cap and hands the same steps back, for
      ever (`starts_over`).

  The first resumption decides which it is, and what a stable one leaves is what any stable
  pass would have left (`resumed_stable_iff`). Dirty mode always plans
  (`exists_stable_of_dirty`). Full mode never does: a cap below the number of steps then
  keeps every resumption from being stable, whatever the scope (`never_stable_of_full`).
  Where a step affects an earlier one, a plan may begin with a step that was only marked
  again, and dirty mode may go on for ever as well (`Loop.dirty_never_stable`).
-/

import Settle.Proofs.Forward
import Settle.Proofs.Ran

namespace Settle

namespace Executor

variable {e : Executor} {ctx : Context} {req : Request} {d : Diagnostics}

/-! ## A pass that no clock stops -/

/-- A pass whose time budget never passes. -/
def untimed (e : Executor) (ctx : Context) (req : Request) (d : Diagnostics) : Passed :=
  e.passUnder (fun _ => false) ctx req d

/-- The first round of such a pass. -/
def firstRound (e : Executor) (ctx : Context) (req : Request) : Pass.Run × Option Pass.Stop :=
  Pass.round (frame (fun _ => false) e req) ((e.choice ctx req).executed = .full) (e.choice ctx req).steps
    (e.start ctx req)

/-- The steps that carried work leaves to go on with. -/
def Passed.left (p : Passed) (scope : Scope) : List StepId := p.executor.forcedSteps scope p.outcome.carried

theorem forcedSteps_passUnder (late : Nat → Bool) (scope : Scope) (carried : Option Carried) :
    (e.passUnder late ctx req d).executor.forcedSteps scope carried = e.forcedSteps scope carried := by
  rcases passUnder_executor late e ctx req d with h | h
  · rw [h]
  · rw [h]
    rfl

theorem frame_untimed (e : Executor) (req : Request) : (frame (fun _ => false) e req).Untimed := fun _ => rfl

theorem choice_full (h : e.Sound) (hfull : (e.choice ctx req).executed = .full) :
    (e.choice ctx req).steps = e.wiring.order req.scope := by
  have hch := h.chosen ctx req
  revert hch hfull
  generalize e.choice ctx req = ch
  intro hfull hch
  cases hch with
  | full _ => rfl
  | plan _ _ _ => cases hfull

theorem sweep_forward (h : e.Sound) (hfw : e.wiring.Forward req.scope) :
    e.sweep (fun _ => false) ctx req
      = ⟨(e.firstRound ctx req).1, (e.firstRound ctx req).2, 1, (e.choice ctx req).executed = .full⟩ :=
  Pass.rounds_forward (f := frame (fun _ => false) e req) h.wired hfw (choice_mem h ctx req) rfl 1

/-- Where no step affects an earlier one, running every step once comes to the same
before a pass and after it. -/
theorem pass_runAll (h : e.Sound) (hl : e.graph.Local) (hr : e.graph.Reflexive) (hself : e.graph.SelfFree)
    (ht : e.graph.Total) (hfw : e.wiring.Forward req.scope)
    (hdue : ∀ j ∈ e.wiring.order req.scope, ¬ e.graph.Settled ctx.draft j → e.graph.Due ctx.dirty req.carried j)
    (hfit : State.fitsAll ctx.draft (e.writes (fun _ => false) ctx req)) :
    e.graph.runAll (e.wiring.order req.scope) (e.untimed ctx req d).context.draft
      = e.graph.runAll (e.wiring.order req.scope) ctx.draft := by
  cases hidle : e.idle ctx req with
  | true => rw [untimed, (passUnder_idle hidle).1]
  | false =>
    have hok := pass_total ht (fun _ => false) ctx req d
    rw [passUnder_degrade hidle] at hok
    rw [untimed, passUnder_sweep hidle hok]
    obtain ⟨P, hsteps, hP, ha⟩ := exists_start h (fun _ => false) (X := fun _ => False) fun j hj hn => .inr (hdue j hj hn)
    have hk := Pass.Kept.start (v := ctx.draft) ha rfl (fun _ hs hn => absurd hs hn) rfl
    simp only [writes, hidle, Bool.false_eq_true, if_false, sweep_forward h hfw, firstRound, hsteps] at hfit
    simp only [sweep_forward h hfw, firstRound, hsteps]
    exact Pass.round_runAll (f := frame (fun _ => false) e req) h.wired hl hr hself ht hfw hfit hP hk rfl
      (List.prefix_refl _)

/-- The steps of the scope whose fields carried work names. -/
theorem forcedSteps_pathsOf (h : e.Sound) {scope : Scope} {due : List StepId}
    (hdue : ∀ j ∈ due, j ∈ e.wiring.order scope) (roots : List Path) :
    e.forcedSteps scope (some ⟨roots, e.pathsOf (due.map e.wiring.out)⟩) = due := by
  unfold forcedSteps pathsOf
  simp only [Option.map_some, Option.getD_some]
  induction due with
  | nil => rfl
  | cons i due ih =>
    have hi := hdue i List.mem_cons_self
    obtain ⟨s, p, hs, hp⟩ := h.wired.exists_out hi
    have hid := h.wired.graph.table.id?_of_path? hp
    have hstep := h.wired.graph.stepFor?_eq hs
    have hscope : e.wiring.inScope scope i = true := Wired.inScope_iff.2 hi
    rw [List.map_cons, h.wired.out_eq hs, List.filterMap_cons_some hp, List.filterMap_cons_some hid,
      List.filterMap_cons_some hstep, List.filter_cons_of_pos hscope, ih fun j hj => hdue j (List.mem_cons_of_mem i hj)]

theorem not_idle_of_forced (hne : e.forcedSteps req.scope req.carried ≠ []) : e.idle ctx req = false := by
  obtain ⟨j, hj⟩ := List.exists_mem_of_ne_nil _ hne
  have hpos : 0 < (e.wiring.order req.scope).length := List.length_pos_of_mem (forced_mem_order hj)
  have hsize : e.wiring.scopeSize req.scope ≠ 0 := Nat.ne_of_gt hpos
  have hempty : (e.forcedSteps req.scope req.carried).isEmpty = false := Bool.eq_false_iff.2 fun he =>
    hne (List.isEmpty_iff.1 he)
  rw [idle, hempty, Bool.and_false, Bool.or_false]
  exact decide_eq_false hsize

/-- What a stopped sweep leaves to go on with are the steps after it that were due. -/
theorem left_of_stop (h : e.Sound) (hidle : e.idle ctx req = false) {reason : Degrade} {rest : List StepId}
    (hstop : (e.sweep (fun _ => false) ctx req).stop = some (.cap reason rest))
    (hrest : ∀ j ∈ rest, j ∈ e.wiring.order req.scope) :
    (e.untimed ctx req d).left req.scope = rest.filter fun i =>
      (e.sweep (fun _ => false) ctx req).unconditional
        || (e.sweep (fun _ => false) ctx req).run.marks.touchesStep e.wiring i := by
  rw [Passed.left, untimed, passUnder_carried hidle, forcedSteps_passUnder, leftBehind, hstop]
  dsimp only
  generalize hdue : rest.filter (fun i => (e.sweep (fun _ => false) ctx req).unconditional
    || (e.sweep (fun _ => false) ctx req).run.marks.touchesStep e.wiring i) = due
  have hsub : due.Sublist rest := hdue ▸ List.filter_sublist
  have hforced := forcedSteps_pathsOf h (fun j hj => hrest j (hsub.subset hj))
    (e.pathsOf (e.sweep (fun _ => false) ctx req).run.again)
  split
  · rename_i hempty
    have hnil : e.pathsOf (due.map e.wiring.out) = [] := by
      simp only [Carried.isEmpty, Bool.and_eq_true, List.isEmpty_iff] at hempty
      exact hempty.2
    rw [hnil] at hforced
    exact hforced
  · exact hforced

/-- A round that is stopped ends the sweep. -/
theorem sweep_of_stop (h : e.Sound) {stop : Pass.Stop} (hstop : (e.firstRound ctx req).2 = some stop) :
    e.sweep (fun _ => false) ctx req
      = ⟨(e.firstRound ctx req).1, some stop, 1, (e.choice ctx req).executed = .full⟩ := by
  have hempty : { e.start ctx req with again := [] } = e.start ctx req := rfl
  refine (Pass.rounds_eq (f := frame (fun _ => false) e req) h.wired (choice_mem h ctx req) (e.start ctx req) 1).trans ?_
  rw [hempty]
  dsimp only
  unfold firstRound at hstop ⊢
  rw [hstop]
  rfl

/-- A pass that runs its whole scope but may not run every step of it is stopped and leaves
the rest. -/
theorem cut_short (h : e.Sound) (ht : e.graph.Total) (hidle : e.idle ctx req = false)
    (hfull : (e.choice ctx req).executed = .full)
    (hcap : req.config.stepCapFor (e.wiring.scopeSize req.scope) < (e.wiring.order req.scope).length) :
    (e.firstRound ctx req).2 = some (.cap .cycleDetected
        ((e.wiring.order req.scope).drop (req.config.stepCapFor (e.wiring.scopeSize req.scope)))) ∧
      (e.untimed ctx req d).outcome.summary.stable = false ∧
      (e.untimed ctx req d).left req.scope
        = (e.wiring.order req.scope).drop (req.config.stepCapFor (e.wiring.scopeSize req.scope)) := by
  have hround := Pass.round_full (f := frame (fun _ => false) e req) (r := e.start ctx req) h.wired (fun _ hj => hj)
    (frame_untimed _ _) ht (Nat.zero_add _)
  have hstop : (e.firstRound ctx req).2 = some (.cap .cycleDetected
      ((e.wiring.order req.scope).drop (req.config.stepCapFor (e.wiring.scopeSize req.scope)))) := by
    unfold firstRound
    rw [hfull, choice_full h hfull]
    exact hround.trans (if_neg (Nat.not_le_of_lt hcap))
  have hsweep := sweep_of_stop h hstop
  refine ⟨hstop, ?_, ?_⟩
  · rw [untimed, Summary.stable, passUnder_degrade hidle, hsweep]
    rfl
  · rw [left_of_stop h hidle (by rw [hsweep]) fun _ hj => List.mem_of_mem_drop hj, hsweep, hfull]
    exact List.filter_eq_self.2 fun _ _ => rfl

/-- How a pass that was stopped at its cap stopped: before `rest`, the steps of which
`left` were due and are to go on with. -/
structure Stopped (e : Executor) (ctx : Context) (req : Request) (p : Passed) (rest left : List StepId) : Prop where
  round : (e.firstRound ctx req).2 = some (.cap .cycleDetected rest)
  suffix : rest <:+ (e.choice ctx req).steps
  room : rest.length + req.config.stepCapFor (e.wiring.scopeSize req.scope) ≤ (e.choice ctx req).steps.length
  carried : ∃ outs, p.outcome.carried = some ⟨[], outs⟩
  goes_on : p.left req.scope = left
  left_ne : left ≠ []
  left_sub : left.Sublist rest
  full : (e.choice ctx req).executed = .full → left = rest

theorem exists_stopped (h : e.Sound) (ht : e.graph.Total) (hfw : e.wiring.Forward req.scope)
    (hun : (e.untimed ctx req d).outcome.summary.stable = false) :
    e.idle ctx req = false ∧ ∃ rest left, Stopped e ctx req (e.untimed ctx req d) rest left := by
  have hidle : e.idle ctx req = false := by
    cases hidle : e.idle ctx req with
    | false => rfl
    | true =>
      have hnone := (@passUnder_idle e (fun _ => false) ctx req d hidle).2.2.2.1
      rw [untimed, Summary.stable, hnone] at hun
      cases hun
  refine ⟨hidle, ?_⟩
  rw [untimed, Summary.stable, passUnder_degrade hidle, sweep_forward h hfw] at hun
  cases hstop : (e.firstRound ctx req).2 with
  | none =>
    rw [hstop] at hun
    cases hun
  | some stop =>
    have hmem := choice_mem h ctx req
    obtain ⟨i, rest, rfl, hsuf, hcap, hdue⟩ := Pass.round_stop (f := frame (fun _ => false) e req) (frame_untimed e req) ht
      hstop
    have hexec := Pass.round_executed (f := frame (fun _ => false) e req) h.wired hmem hstop
    have hagain : (e.firstRound ctx req).1.again = [] :=
      Pass.round_again (f := frame (fun _ => false) e req) h.wired hfw hmem (e.start ctx req)
    change _ ≤ (e.firstRound ctx req).1.executed at hcap
    change (e.firstRound ctx req).1.executed + _ ≤ 0 + _ at hexec
    change (_ || (e.firstRound ctx req).1.marks.touchesStep e.wiring i) = true at hdue
    have hsweep := sweep_of_stop h hstop
    have hleft := left_of_stop (d := d) h hidle (by rw [hsweep]) fun j hj => hmem j (hsuf.subset hj)
    rw [hsweep] at hleft
    dsimp only at hleft
    generalize hdue' : (i :: rest).filter (fun j => Decidable.decide ((e.choice ctx req).executed = .full)
      || (e.firstRound ctx req).1.marks.touchesStep e.wiring j) = left at hleft
    have hin : i ∈ left := hdue' ▸ List.mem_filter.2 ⟨List.mem_cons_self, hdue⟩
    have hne : left ≠ [] := List.ne_nil_of_mem hin
    refine ⟨i :: rest, left, hstop, hsuf, ?_, ?_, hleft, hne, hdue' ▸ List.filter_sublist, fun hfull => ?_⟩
    · have hcap' : req.config.stepCapFor (e.wiring.scopeSize req.scope) ≤ (e.firstRound ctx req).1.executed := hcap
      omega
    · have hcarried := @passUnder_carried e (fun _ => false) ctx req d hidle
      rw [hsweep, leftBehind] at hcarried
      dsimp only at hcarried
      rw [hagain] at hcarried
      split at hcarried
      · rw [Passed.left, untimed, hcarried] at hleft
        exact absurd hleft.symm hne
      · exact ⟨_, hcarried⟩
    · rw [← hdue', hfull]
      exact List.filter_eq_self.2 fun _ _ => rfl

/-- What a stopped pass leaves are steps that its cap leaves of the scope. -/
theorem Stopped.beyond (h : e.Sound) {p : Passed} {rest left : List StepId} (hs : Stopped e ctx req p rest left) :
    req.config.stepCapFor (e.wiring.scopeSize req.scope) < (e.wiring.order req.scope).length ∧
      ∀ j ∈ left, j ∈ (e.wiring.order req.scope).drop (req.config.stepCapFor (e.wiring.scopeSize req.scope)) := by
  have horder := choice_order h ctx req
  have hroom := hs.room
  have hlen := horder.length_le
  have hrest : rest ≠ [] := fun he => hs.left_ne (List.sublist_nil.1 (he ▸ hs.left_sub))
  have hpos : 0 < rest.length := List.length_pos_iff.2 hrest
  refine ⟨by omega, fun j hj => ?_⟩
  have hdrop : rest.Sublist ((e.choice ctx req).steps.drop (req.config.stepCapFor (e.wiring.scopeSize req.scope))) := by
    obtain ⟨before, hb⟩ := hs.suffix
    have hlen' := congrArg List.length hb
    rw [List.length_append] at hlen'
    rw [← hb]
    have hle : req.config.stepCapFor (e.wiring.scopeSize req.scope) ≤ before.length := by omega
    have hafter := List.drop_sublist_drop_left (before ++ rest) hle
    rwa [List.drop_left] at hafter
  exact (hdrop.trans (horder.drop _)).subset (hs.left_sub.subset hj)

/-! ## Resumptions -/

/-- The context after a pass, with no roots and under another number. -/
def Passed.next (p : Passed) : Context := { p.context with dirty := .empty, txnSeq := p.context.txnSeq + 1 }

/-- The request to go on with what a pass carried. -/
def Passed.request (req : Request) (p : Passed) : Request := { req with carried := p.outcome.carried }

/-- Go on with what a pass carried, with no roots of its own. -/
def resumption (req : Request) (p : Passed) : Passed := p.executor.untimed p.next (p.request req) p.diagnostics

/-- A pass and its resumptions, each of which goes on with what the one before carried. -/
def resumed (e : Executor) (ctx : Context) (req : Request) (d : Diagnostics) : Nat → Passed
  | 0 => e.untimed ctx req d
  | n + 1 => resumption req (e.resumed ctx req d n)

/-- The pass was stopped and has these steps left. -/
structure Goes (g : Graph) (w : Wiring) (scope : Scope) (p : Passed) (left : List StepId) : Prop where
  executor : p.executor.Sound
  graph : p.executor.graph = g
  wiring : p.executor.wiring = w
  unstable : p.outcome.summary.stable = false
  carried : ∃ outs, p.outcome.carried = some ⟨[], outs⟩
  goes_on : p.left scope = left
  left_ne : left ≠ []

theorem Stopped.goes (h : e.Sound) {rest left : List StepId} (hun : (e.untimed ctx req d).outcome.summary.stable = false)
    (hs : Stopped e ctx req (e.untimed ctx req d) rest left) :
    Goes e.graph e.wiring req.scope (e.untimed ctx req d) left where
  executor := h.passUnder _ _ _ _
  graph := passUnder_graph _ _ _ _ _
  wiring := passUnder_wiring _ _ _ _ _
  unstable := hun
  carried := hs.carried
  goes_on := hs.goes_on
  left_ne := hs.left_ne

theorem exists_goes (h : e.Sound) (ht : e.graph.Total) (hfw : e.wiring.Forward req.scope)
    (hun : (e.untimed ctx req d).outcome.summary.stable = false) :
    ∃ left, Goes e.graph e.wiring req.scope (e.untimed ctx req d) left := by
  obtain ⟨-, rest, left, hs⟩ := exists_stopped h ht hfw hun
  exact ⟨left, hs.goes h hun⟩

section

variable {g : Graph} {w : Wiring} {p : Passed} {left : List StepId}

theorem Goes.mem_order (hg : Goes g w req.scope p left) : ∀ j ∈ left, j ∈ w.order req.scope := by
  obtain rfl := hg.wiring
  obtain rfl := hg.goes_on
  exact fun j hj => forced_mem_order hj

theorem Goes.not_idle (hg : Goes g w req.scope p left) : p.executor.idle p.next (p.request req) = false := by
  refine not_idle_of_forced fun hnil => hg.left_ne ?_
  exact hg.goes_on.symm.trans hnil

/-- The choice of a resumption goes by the steps left alone. -/
theorem Goes.choice (hg : Goes g w req.scope p left) (hseq : 1 ≤ p.context.txnSeq) {ch : Pass.Choice}
    (he : p.executor.choice p.next (p.request req) = ch) :
    (Pass.Replans w req.scope req.config left ∧ ch.executed = .dirty ∧
        Plan.IsPlan g w req.scope [] left ch.steps) ∨
      (¬ Pass.Replans w req.scope req.config left ∧ ch.executed = .full ∧ ch.steps = w.order req.scope) := by
  obtain rfl := hg.graph
  obtain rfl := hg.wiring
  obtain ⟨outs, hc⟩ := hg.carried
  have hroots : p.executor.rootsOf p.next (p.request req).carried = ⟨[], none⟩ := by
    rw [Passed.request, hc]
    exact resolve_empty _
  have hch : ch = Pass.decide p.executor.wiring p.executor.cache (p.context.txnSeq + 1) req.scope req.config ⟨[], none⟩
      left := by
    rw [← he]
    change Pass.decide p.executor.wiring p.executor.cache (p.context.txnSeq + 1) req.scope req.config _
      (p.left req.scope) = _
    rw [hroots, hg.goes_on]
  rw [hch]
  refine (Pass.decide_resumed p.executor.wiring p.executor.cache (Nat.lt_succ_of_le hseq) req.scope req.config
    hg.left_ne).imp ?_ id
  intro ⟨hr, hdirty, hp⟩
  exact ⟨hr, hdirty, Plan.compute_forced hg.executor.wired hp⟩

theorem Goes.executed (hg : Goes g w req.scope p left) (hseq : 1 ≤ p.context.txnSeq) :
    (resumption req p).outcome.summary.executed = .full ↔ ¬ Pass.Replans w req.scope req.config left := by
  rw [resumption, untimed, passUnder_executed hg.not_idle]
  generalize he : p.executor.choice p.next (p.request req) = ch
  rcases hg.choice hseq he with ⟨hr, he, -⟩ | ⟨hr, he, -⟩
  · rw [he]
    exact ⟨nofun, fun hn => absurd hr hn⟩
  · exact ⟨fun _ => hr, fun _ => he⟩

variable (ht : g.Total) (hfw : w.Forward req.scope)

include ht hfw

/-- A resumption that runs a plan runs the first step left, and is stable or leaves later
ones, of a shorter plan. -/
theorem Goes.plan_step (hg : Goes g w req.scope p left) (hseq : 1 ≤ p.context.txnSeq)
    (hr : Pass.Replans w req.scope req.config left) {plan : List StepId}
    (hp : Plan.IsPlan g w req.scope [] left plan) :
    (resumption req p).outcome.summary.stable = true ∨
      ∃ left', Goes g w req.scope (resumption req p) left' ∧ Pass.Replans w req.scope req.config left' ∧
        ∀ plan', Plan.IsPlan g w req.scope [] left' plan' → plan'.length < plan.length := by
  obtain rfl := hg.graph
  obtain rfl := hg.wiring
  cases hst : (resumption req p).outcome.summary.stable with
  | true => exact .inl rfl
  | false =>
    right
    obtain ⟨hidle, rest, left', hs⟩ := @exists_stopped p.executor p.next (p.request req) p.diagnostics hg.executor ht hfw
      hst
    have hgoes : Goes p.executor.graph p.executor.wiring req.scope (resumption req p) left' := hs.goes hg.executor hst
    have hround := hs.round
    unfold firstRound at hround
    have hsub := hs.left_sub
    rcases hg.choice hseq rfl with ⟨-, hdirty, hplan⟩ | ⟨hn, -⟩
    · rw [← hp.eq hplan] at hround
      cases plan with
      | nil =>
        obtain ⟨j, hj⟩ := List.exists_mem_of_ne_nil left hg.left_ne
        cases (hp.mem_iff j).2 (.forced hj (hg.mem_order j hj))
      | cons i l =>
        have hi := hp.head_forced hg.executor.wired hfw hg.mem_order
        have hforced : i ∈ p.executor.forcedSteps (p.request req).scope (p.request req).carried := by
          change i ∈ p.left req.scope
          rwa [hg.goes_on]
        have htouch : (p.executor.start p.next (p.request req)).marks.touchesStep p.executor.wiring i = true :=
          touches_forced hg.executor hforced
        have hrest : rest <:+ l := Pass.round_rest (f := frame (fun _ => false) p.executor (p.request req))
          (frame_untimed _ _) ht (by rw [hdirty]; exact htouch) (Nat.le_max_left _ _) hround
        have hlater : ∀ s ∈ left', s ∈ l := fun s hs' => hrest.subset (hsub.subset hs')
        refine ⟨left', hgoes, hr.mono hg.executor.wired fun s hs' => hs'.trans fun t ht' => ?_, fun plan' hp' => ?_⟩
        · exact (hp.mem_iff t).1 (List.mem_cons_of_mem i (hlater t ht'))
        · have := (hp.tail hg.executor.wired hfw hlater hp').length_le
          rw [List.length_cons]
          omega
    · exact absurd hr hn

/-- A resumption that runs its whole scope begins anew and leaves what its cap leaves of
the scope. -/
theorem Goes.full_step (hg : Goes g w req.scope p left) (hseq : 1 ≤ p.context.txnSeq)
    (hr : ¬ Pass.Replans w req.scope req.config left)
    (hcap : req.config.stepCapFor (w.scopeSize req.scope) < (w.order req.scope).length) :
    Goes g w req.scope (resumption req p)
      ((w.order req.scope).drop (req.config.stepCapFor (w.scopeSize req.scope))) := by
  obtain rfl := hg.graph
  obtain rfl := hg.wiring
  rcases hg.choice hseq rfl with ⟨hr', -⟩ | ⟨-, hfull, hsteps⟩
  · exact absurd hr' hr
  obtain ⟨hstop, hun, -⟩ := @cut_short p.executor p.next (p.request req) p.diagnostics hg.executor ht hg.not_idle hfull hcap
  obtain ⟨-, rest, left', hs⟩ := @exists_stopped p.executor p.next (p.request req) p.diagnostics hg.executor ht hfw hun
  have hrest := hs.full hfull
  have hround := hs.round
  rw [hstop] at hround
  cases hround
  exact hrest ▸ hs.goes hg.executor hun

end

/-! ## Going on -/

theorem passUnder_txnSeq (late : Nat → Bool) (e : Executor) (ctx : Context) (req : Request) (d : Diagnostics) :
    (e.passUnder late ctx req d).context.txnSeq = ctx.txnSeq := by
  rw [passUnder_eq]
  split
  · rfl
  · dsimp only [close]
    split <;> rfl

theorem resumed_txnSeq (e : Executor) (ctx : Context) (req : Request) (d : Diagnostics) (n : Nat) :
    (e.resumed ctx req d n).context.txnSeq = ctx.txnSeq + n := by
  induction n with
  | zero => exact passUnder_txnSeq _ _ _ _ _
  | succ n ih =>
    refine (passUnder_txnSeq _ _ _ _ _).trans ?_
    rw [Passed.next, ih]
    rfl

theorem resumed_txnSeq_pos (hseq : 1 ≤ ctx.txnSeq) (n : Nat) : 1 ≤ (e.resumed ctx req d n).context.txnSeq := by
  rw [resumed_txnSeq]
  omega

theorem resumed_graph (e : Executor) (ctx : Context) (req : Request) (d : Diagnostics) (n : Nat) :
    (e.resumed ctx req d n).executor.graph = e.graph := by
  induction n with
  | zero => exact passUnder_graph _ _ _ _ _
  | succ n ih => exact (passUnder_graph _ _ _ _ _).trans ih

/-- A resumption appends to the patches. -/
theorem resumed_succ_patches (ht : e.graph.Total) (ctx : Context) (req : Request) (d : Diagnostics) (n : Nat) :
    ∃ more, (e.resumed ctx req d (n + 1)).context.patches = (e.resumed ctx req d n).context.patches ++ more := by
  have hok := pass_total ((resumed_graph e ctx req d n).symm ▸ ht) (fun _ => false) (e.resumed ctx req d n).next
    ((e.resumed ctx req d n).request req) (e.resumed ctx req d n).diagnostics
  obtain ⟨more, hmore, -⟩ := pass_patches hok
  exact ⟨more, hmore⟩

theorem resumed_patches (ht : e.graph.Total) (ctx : Context) (req : Request) (d : Diagnostics) (n : Nat) :
    ∃ ps, (e.resumed ctx req d n).context.patches = ctx.patches ++ ps := by
  induction n with
  | zero =>
    obtain ⟨ps, hps, -⟩ := pass_patches (pass_total ht (fun _ => false) ctx req d)
    exact ⟨ps, hps⟩
  | succ n ih =>
    obtain ⟨ps, hps⟩ := ih
    obtain ⟨more, hmore⟩ := resumed_succ_patches ht ctx req d n
    exact ⟨ps ++ more, by rw [hmore, hps, List.append_assoc]⟩

section

variable {g : Graph} {w : Wiring} (ht : g.Total) (hfw : w.Forward req.scope) (hseq : 1 ≤ ctx.txnSeq)

include ht hfw hseq

/-- Once a plan of the steps left is short enough to be run, some resumption is stable. -/
theorem exists_stable {n : Nat} {left : List StepId} (hg : Goes g w req.scope (e.resumed ctx req d n) left)
    (hr : Pass.Replans w req.scope req.config left) : ∃ m, (e.resumed ctx req d m).outcome.summary.stable = true := by
  have hwired : Wired g w := hg.graph ▸ hg.wiring ▸ hg.executor.wired
  obtain ⟨plan, hp⟩ := hr.exists_plan hwired
  -- on the number of steps that the plan of the steps left has
  induction hN : plan.length using Nat.strongRecOn generalizing n left plan with
  | _ N ih =>
  rcases hg.plan_step ht hfw (resumed_txnSeq_pos hseq n) hr hp with hst | ⟨left', hg', hr', hless⟩
  · exact ⟨n + 1, hst⟩
  · obtain ⟨plan', hp'⟩ := hr'.exists_plan hwired
    exact ih plan'.length (hN ▸ hless plan' hp') (n := n + 1) hg' hr' plan' hp' rfl

end

section

variable (h : e.Sound) (ht : e.graph.Total) (hfw : e.wiring.Forward req.scope) (hseq : 1 ≤ ctx.txnSeq)

include h ht hfw hseq

/-- Once a resumption runs its whole scope no resumption is ever stable. -/
theorem starts_over (hun : (e.resumed ctx req d 0).outcome.summary.stable = false)
    (hfull : (e.resumed ctx req d 1).outcome.summary.executed = .full) (n : Nat) :
    (e.resumed ctx req d n).outcome.summary.stable = false := by
  obtain ⟨-, rest, left, hs⟩ := exists_stopped h ht hfw hun
  obtain ⟨hcap, hbeyond⟩ := hs.beyond h
  have hgoes := hs.goes h hun
  have hr := (hgoes.executed (resumed_txnSeq_pos hseq 0)).1 hfull
  suffices hall : ∃ left, Goes e.graph e.wiring req.scope (e.resumed ctx req d n) left ∧
      ¬ Pass.Replans e.wiring req.scope req.config left ∧
      ∀ j ∈ left, j ∈ (e.wiring.order req.scope).drop (req.config.stepCapFor (e.wiring.scopeSize req.scope)) by
    obtain ⟨left, hg, -⟩ := hall
    exact hg.unstable
  induction n with
  | zero => exact ⟨left, hgoes, hr, hbeyond⟩
  | succ n ih =>
    obtain ⟨left, hg, hr, hbeyond⟩ := ih
    refine ⟨_, hg.full_step ht hfw (resumed_txnSeq_pos hseq n) hr hcap, fun hr' => hr ?_, fun j hj => hj⟩
    -- what is left now reaches all that was left before
    refine hr'.mono h.wired fun s hs => hs.trans fun t ht' => ?_
    exact .forced (hbeyond t ht') (List.mem_of_mem_drop (hbeyond t ht'))

/-- Where no step affects an earlier one, the first resumption decides whether any is
stable. -/
theorem exists_stable_iff :
    (∃ n, (e.resumed ctx req d n).outcome.summary.stable = true) ↔
      (e.resumed ctx req d 0).outcome.summary.stable = true ∨
        (e.resumed ctx req d 1).outcome.summary.executed ≠ .full := by
  constructor
  · intro ⟨n, hn⟩
    refine Classical.byContradiction fun hnot => ?_
    obtain ⟨hun, hfull⟩ := not_or.1 hnot
    rw [starts_over h ht hfw hseq (Bool.eq_false_iff.2 hun) (Classical.not_not.1 hfull) n] at hn
    cases hn
  · intro hcase
    rcases hcase with hst | hplan
    · exact ⟨0, hst⟩
    cases hst : (e.resumed ctx req d 0).outcome.summary.stable with
    | true => exact ⟨0, hst⟩
    | false =>
      obtain ⟨left, hgoes⟩ := exists_goes h ht hfw hst
      have hr := Classical.byContradiction fun hn => hplan ((hgoes.executed (resumed_txnSeq_pos hseq 0)).2 hn)
      exact exists_stable (n := 0) ht hfw hseq hgoes hr

/-- In dirty mode some resumption is stable. -/
theorem exists_stable_of_dirty (hmode : req.config.mode = .dirty) :
    ∃ n, (e.resumed ctx req d n).outcome.summary.stable = true := by
  cases hst : (e.resumed ctx req d 0).outcome.summary.stable with
  | true => exact ⟨0, hst⟩
  | false =>
    obtain ⟨left, hgoes⟩ := exists_goes h ht hfw hst
    exact exists_stable (n := 0) ht hfw hseq hgoes (Pass.Replans.of_dirty hmode left)

end

/-- In full mode with a cap below the number of steps none is, whatever the scope. -/
theorem never_stable_of_full (h : e.Sound) (ht : e.graph.Total) (hmode : req.config.mode = .full)
    (hidle : e.idle ctx req = false)
    (hcap : req.config.stepCapFor (e.wiring.scopeSize req.scope) < (e.wiring.order req.scope).length) (n : Nat) :
    (e.resumed ctx req d n).outcome.summary.stable = false := by
  have hfull : ∀ (e : Executor) (ctx : Context) (carried : Option Carried),
      (e.choice ctx { req with carried := carried }).executed = .full := by
    intro e ctx carried
    unfold choice Pass.decide
    simp only [hmode, if_true]
  suffices hall : (e.resumed ctx req d n).executor.Sound ∧ (e.resumed ctx req d n).executor.wiring = e.wiring ∧
      (e.resumed ctx req d n).outcome.summary.stable = false ∧ (e.resumed ctx req d n).left req.scope
        = (e.wiring.order req.scope).drop (req.config.stepCapFor (e.wiring.scopeSize req.scope)) from hall.2.2.1
  induction n with
  | zero =>
    obtain ⟨-, hun, hleft⟩ := cut_short (d := d) h ht hidle (hfull e ctx req.carried) hcap
    exact ⟨h.passUnder _ _ _ _, passUnder_wiring _ _ _ _ _, hun, hleft⟩
  | succ n ih =>
    obtain ⟨hsound, hw, -, hleft⟩ := ih
    have hne : (e.resumed ctx req d n).left req.scope ≠ [] := by
      rw [hleft]
      exact fun hnil => absurd (List.drop_eq_nil_iff.1 hnil) (Nat.not_le_of_lt hcap)
    have ht' : (e.resumed ctx req d n).executor.graph.Total := (resumed_graph e ctx req d n).symm ▸ ht
    obtain ⟨-, hun, hleft'⟩ := @cut_short (e.resumed ctx req d n).executor (e.resumed ctx req d n).next
      ((e.resumed ctx req d n).request req) (e.resumed ctx req d n).diagnostics hsound ht'
      (not_idle_of_forced hne) (hfull _ _ _) (hw.symm ▸ hcap)
    refine ⟨hsound.passUnder _ _ _ _, (passUnder_wiring _ _ _ _ _).trans hw, hun, ?_⟩
    rw [← hw]
    exact hleft'

/-! ## What is left in the end -/

/-- A pass on the way from a context accounts for what it leaves unsettled, and running
every step once comes to the same as from there. -/
structure Going (c : Compiled) (scope : Scope) (ctx₀ : Context) (p : Passed) : Prop where
  executor : Reached c p.executor
  logged : ∃ ps, p.context.patches = ctx₀.patches ++ ps ∧
    p.context.draft = State.writeAll ctx₀.draft (c.graph.writesOf ps)
  due : ∀ j ∈ c.wiring.order scope, ¬ c.graph.Settled p.context.draft j →
    ∃ work, p.outcome.carried = some work ∧ c.graph.Owes work j
  stable : p.outcome.summary.stable = true → p.outcome.carried = none
  runAll : c.graph.runAll (c.wiring.order scope) p.context.draft = c.graph.runAll (c.wiring.order scope) ctx₀.draft

section

variable {decl : Declaration} {c : Compiled} (hc : c.Of decl) (hl : c.graph.Local) (hr : c.graph.Reflexive)
  (hself : c.graph.SelfFree) (ht : c.graph.Total) (hfw : c.wiring.Forward req.scope) {ctx₀ : Context}

/-- A stable pass leaves what running every step once leaves. -/
theorem Going.draft_eq {scope : Scope} {p : Passed} (h : Going c scope ctx₀ p)
    (hst : p.outcome.summary.stable = true) :
    p.context.draft = c.graph.runAll (c.wiring.order scope) ctx₀.draft := by
  have hsettled : ∀ j ∈ c.wiring.order scope, c.graph.Settled p.context.draft j := fun j hj =>
    Classical.byContradiction fun hn => by
      obtain ⟨work, hwork, -⟩ := h.due j hj hn
      rw [h.stable hst] at hwork
      cases hwork
  have hsame := Graph.runAll_settled hsettled []
  rw [List.append_nil] at hsame
  exact hsame.symm.trans h.runAll

include hc hl hr hself ht hfw

theorem untimed_going (he : Reached c e)
    (hlog : ∃ ps, ctx.patches = ctx₀.patches ++ ps ∧ ctx.draft = State.writeAll ctx₀.draft (c.graph.writesOf ps))
    (hdue : ∀ j ∈ c.wiring.order req.scope, ¬ c.graph.Settled ctx.draft j → c.graph.Due ctx.dirty req.carried j)
    (hsame : c.graph.runAll (c.wiring.order req.scope) ctx.draft = c.graph.runAll (c.wiring.order req.scope) ctx₀.draft)
    (hfit : State.fitsAll ctx₀.draft
      (c.graph.writesOf ((e.untimed ctx req d).context.patches.drop ctx₀.patches.length))) :
    Going c req.scope ctx₀ (e.untimed ctx req d) := by
  have hs := he.sound hc
  obtain ⟨hg, hw⟩ := he.same
  have hok := pass_total (hg ▸ ht) (fun _ => false) ctx req d
  rw [← hg] at hlog hfit
  have hfits : State.fitsAll ctx.draft (e.writes (fun _ => false) ctx req) = true := by
    obtain ⟨ps, hps, -⟩ := id hlog
    obtain ⟨more, hmore, -⟩ := pass_patches hok
    have happ : (e.untimed ctx req d).context.patches = ctx₀.patches ++ (ps ++ more) := by
      rw [untimed, hmore, hps, List.append_assoc]
    rw [happ, List.drop_left] at hfit
    exact pass_fits hlog hfit hok (happ ▸ List.prefix_refl _)
  refine ⟨he.pass _ _ _ _, ?_, ?_, carried_of_stable, ?_⟩
  · rw [← hg]
    exact pass_logged hs.wired.graph hlog
  · intro j hj hn
    rw [← hg] at hn ⊢
    rw [← hw] at hj
    refine (pass_accounts (X := fun _ => False) hs (hg ▸ hl) (hg ▸ hr) (hg ▸ hself) (fun j hj hn => ?_) hfits hok hj
      hn).resolve_left id
    rw [hg] at hn ⊢
    rw [hw] at hj
    exact .inr (hdue j hj hn)
  · have hrun := pass_runAll (d := d) hs (hg ▸ hl) (hg ▸ hr) (hg ▸ hself) (hg ▸ ht) (hw ▸ hfw) (hg ▸ hw ▸ hdue) hfits
    rw [hg, hw] at hrun
    exact hrun.trans hsame

theorem resumed_going (he : Reached c e)
    (hdue : ∀ j ∈ c.wiring.order req.scope, ¬ c.graph.Settled ctx.draft j → c.graph.Due ctx.dirty req.carried j) (n : Nat)
    (hfit : State.fitsAll ctx.draft
      (c.graph.writesOf ((e.resumed ctx req d n).context.patches.drop ctx.patches.length))) :
    Going c req.scope ctx (e.resumed ctx req d n) := by
  induction n with
  | zero =>
    exact untimed_going hc hl hr hself ht hfw he ⟨[], (List.append_nil _).symm, rfl⟩ hdue rfl hfit
  | succ n ih =>
    have htotal : e.graph.Total := he.same.1.symm ▸ ht
    obtain ⟨ps, hps⟩ := resumed_patches htotal ctx req d n
    obtain ⟨more, hmore⟩ := resumed_succ_patches htotal ctx req d n
    -- what was written up to here is where what is written in the end begins
    have hbefore : State.fitsAll ctx.draft
        (c.graph.writesOf ((e.resumed ctx req d n).context.patches.drop ctx.patches.length)) = true := by
      rw [hmore, hps, List.append_assoc, List.drop_left, Graph.writesOf_append, State.fitsAll_append] at hfit
      rw [hps, List.drop_left]
      exact hfit.1
    have hgo := ih hbefore
    exact @untimed_going _ _ ((e.resumed ctx req d n).request req) _ _ _ hc hl hr hself ht hfw ctx hgo.executor
      hgo.logged
      (fun j hj hn => .inr (hgo.due j hj hn)) hgo.runAll hfit

end

/-- Where no step affects an earlier one, a pass and its resumptions end stable just when
the pass itself does or the first resumption does not run its whole scope. When each step
unsettled before was due, the stable one leaves what any stable pass leaves. -/
theorem resumed_stable_iff {decl : Declaration} {c : Compiled} (hc : c.Of decl) (ht : c.graph.Total) {e : Executor}
    (he : Reached c e) (ctx : Context) (req : Request) (d : Diagnostics) (hfw : c.wiring.Forward req.scope)
    (hseq : 1 ≤ ctx.txnSeq) :
    ((∃ n, (e.resumed ctx req d n).outcome.summary.stable = true) ↔
      (e.resumed ctx req d 0).outcome.summary.stable = true ∨
        (e.resumed ctx req d 1).outcome.summary.executed ≠ .full) ∧
    (c.graph.Local → c.graph.Reflexive → c.graph.SelfFree →
      (∀ j ∈ c.wiring.order req.scope, ¬ c.graph.Settled ctx.draft j → c.graph.Due ctx.dirty req.carried j) →
      ∀ (config : Policy.Convergence) (d' : Diagnostics) (n : Nat),
        State.fitsAll ctx.draft (e.writes (fun _ => false) ctx { req with config := config }) →
        State.fitsAll ctx.draft
          (c.graph.writesOf ((e.resumed ctx req d n).context.patches.drop ctx.patches.length)) →
        (e.untimed ctx { req with config := config } d').outcome.summary.stable = true →
        (e.resumed ctx req d n).outcome.summary.stable = true →
        (e.resumed ctx req d n).context.draft = (e.untimed ctx { req with config := config } d').context.draft) := by
  have hs := he.sound hc
  obtain ⟨hg, hw⟩ := he.same
  refine ⟨exists_stable_iff hs (hg.symm ▸ ht) (hw.symm ▸ hfw) hseq, ?_⟩
  intro hl hr hself hdue config d' n hfit hfit' hst hst'
  have hok := pass_total (hg.symm ▸ ht) (fun _ => false) ctx { req with config := config } d'
  obtain ⟨ps, hps, hwrites⟩ := pass_patches hok
  rw [hg] at hwrites
  have hgo : Going c req.scope ctx (e.untimed ctx { req with config := config } d') := by
    refine @untimed_going _ _ { req with config := config } _ _ _ hc hl hr hself ht hfw ctx he
      ⟨[], (List.append_nil _).symm, rfl⟩ hdue rfl ?_
    rw [untimed, hps, List.drop_left, hwrites]
    exact hfit
  rw [hgo.draft_eq hst, (resumed_going hc hl hr hself ht hfw he hdue n hfit').draft_eq hst']

end Executor

/-! ## A relay that is stopped after one step -/

/-- A relay where `x` was set to 2. -/
def Relay.moved : Context := ⟨state 2 1 1, [], .ofPaths [x], 2⟩

/-- A pass over it that runs one step, and its resumptions. -/
def Relay.resumed (mode : Policy.Mode) : Nat → Executor.Passed :=
  executor.resumed moved ⟨.all, config mode 1, none⟩ (.ofReporting .builtin false)

/-- A pass over it that may run as many steps as it likes. -/
def Relay.whole (mode : Policy.Mode) : Executor.Passed :=
  executor.untimed moved ⟨.all, config mode 9, none⟩ (.ofReporting .builtin false)

theorem Relay.forward : compiled.wiring.Forward .all := by
  intro i hi
  have hi : i ∈ [0, 1] := hi
  rcases List.mem_cons.1 hi with rfl | hi
  · cbv
  · obtain rfl := List.mem_singleton.1 hi
    cbv

theorem Relay.moved_due (j : StepId) (hj : j ∈ compiled.wiring.order .all) (hn : ¬ graph.Settled moved.draft j) :
    graph.Due moved.dirty none j :=
  due_of_x hj hn

theorem Relay.dirty_stable :
    (∃ n, (resumed .dirty n).outcome.summary.stable = true) ∧
      (resumed .dirty 1).context.draft = (whole .dirty).context.draft := by
  have he : Executor.Reached compiled executor := .ofCompiled _
  have h := Executor.resumed_stable_iff compiled_of total he moved ⟨.all, config .dirty 1, none⟩
    (.ofReporting .builtin false) forward (by decide)
  refine ⟨h.1.2 (.inr ?_), h.2 local_ reflexive selfFree moved_due (config .dirty 9) _ 1 ?_ ?_ ?_ ?_⟩
  · cbv
    intro h
    cases h
  · cbv
  · cbv
  · cbv
  · cbv

theorem Relay.full_never_stable :
    (whole .full).outcome.summary.stable = true ∧ ∀ n, (resumed .full n).outcome.summary.stable = false := by
  have hs : executor.Sound := Executor.Reached.sound compiled_of (.ofCompiled _)
  refine ⟨by cbv, Executor.never_stable_of_full hs total rfl ?_ ?_⟩
  · cbv
  · cbv

/-! ## A loop -/

namespace Loop

open Relay (a b x state)

/-- `b` copies `x` but may look at `a`, which copies `b`. -/
def declaration : Declaration :=
  (Declaration.named "loop").group
    (((Group.named "loop").field "a" (.link "b" .deferred)).field "b"
      (.computed ⟨["a", "x"], Relay.derive, none, .deferred⟩))

def graph : Graph where
  moduleId := "loop"
  table := ⟨[a, b, x]⟩
  steps := [⟨0, .link, 0, [1], some 1, .deferred, "a", "loop"⟩,
    ⟨1, .computed, 1, [0, 2], none, .deferred, "b", "loop"⟩]
  bodies := [.link, .computed Relay.derive none]
  orders := ⟨⟨[0, 1], [0, 1]⟩, ⟨[], []⟩, ⟨[0, 1], [0, 1]⟩⟩
  levels := []
  reserved := []
  shapeWarnings := []
  generation := 1

def compiled : Compiled := ⟨graph, .ofGraph graph⟩

theorem compiled_of : compiled.Of declaration := by
  refine ⟨⟨1, ?_⟩, rfl⟩
  unfold compiled graph
  cbv

def executor : Executor := .ofCompiled ⟨"loop", "1"⟩ compiled

def request (cap : Nat) : Executor.Request := ⟨.all, Relay.config .dirty cap, none⟩

/-- A pass that runs one step, and its resumptions. -/
def resumed : Nat → Executor.Passed := executor.resumed Relay.moved (request 1) (.ofReporting .builtin false)

/-- A pass that may run as many steps as it likes. -/
def whole : Executor.Passed := executor.untimed Relay.moved (request 9) (.ofReporting .builtin false)

/-- Both steps are settled, but `b` is handed back. -/
structure Stuck (p : Executor.Passed) : Prop where
  graph : p.executor.graph = graph
  wiring : p.executor.wiring = compiled.wiring
  draft : p.context.draft = state 2 2 2
  carried : p.outcome.carried = some ⟨[], [b]⟩
  unstable : p.outcome.summary.stable = false
  executed : p.outcome.summary.executed = .dirty

/-- The mark of `b` makes `a` due, which stands before it and takes up the cap. -/
theorem Stuck.again {p : Executor.Passed} (h : Stuck p) : Stuck (Executor.resumption (request 1) p) := by
  obtain ⟨⟨key, g, w, cache⟩, ⟨draft, patches, dirty, seq⟩, d, ⟨changed, carried, summary⟩, calls⟩ := p
  obtain ⟨hg, hw, hd, hc, -, -⟩ := h
  cases hg
  cases hw
  cases hd
  cases hc
  rw [Executor.resumption, Executor.untimed, Executor.passUnder_eq]
  constructor <;> cbv

theorem resumed_stuck (n : Nat) : Stuck (resumed (n + 1)) := by
  induction n with
  | zero => constructor <;> cbv
  | succ n ih => exact ih.again

/-- `Forward` is needed: here every resumption runs a plan, the first already leaves
nothing unsettled, and yet none is ever stable. -/
theorem dirty_never_stable :
    whole.outcome.summary.stable = true ∧
      ∀ n, (resumed n).outcome.summary.executed = .dirty ∧ (resumed n).outcome.summary.stable = false := by
  refine ⟨by cbv, fun n => ?_⟩
  cases n with
  | zero => constructor <;> cbv
  | succ n => exact ⟨(resumed_stuck n).executed, (resumed_stuck n).unstable⟩

end Loop

end Settle
