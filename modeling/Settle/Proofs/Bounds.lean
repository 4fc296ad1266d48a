/-
  Settle.Proofs.Bounds — caps bound every pass and every unit (see `Settle.Pass.Sweep` and
  `Settle.Instance.Apply`).

  A sweep goes on after a round only if that round kept a field, and a field is kept by a
  step that ran; so the rounds are no more than the steps that ran and one
  (`Pass.rounds_le`), and those are no more than the cap. No sweep stops for another
  reason than a round that kept nothing, a cap, a clock or a failure. One that its step
  cap stopped was about to run a step that was due, and the work it hands back names the
  field of that step first (`Executor.leftBehind_head`). Nothing is assumed of derive
  functions and equalities, of cycles, or of fields that overlap.

  A unit comes to at most three passes, whatever its mode. What one pass ran is taken off
  what caps the next, so together they keep within the budget of the unit
  (`Instance.bounded`).
-/

import Settle.Proofs.Acyclic
import Settle.Proofs.Budget
import Settle.Proofs.Switch

namespace Settle

/-! ## Sweeps -/

namespace Pass

variable {f : Frame} {u : Bool} {l : List StepId} {r : Run} {n : Nat}

/-- What a round leaves when it is stopped begins with a step that was due. -/
theorem round_rest_due {reason : Degrade} {rest : List StepId} (hs : (round f u l r).2 = some (.cap reason rest)) :
    ∃ i later, rest = i :: later ∧ (u = true ∨ (round f u l r).1.marks.touchesStep f.wiring i = true) := by
  have hdue : ∀ {i : StepId} {r : Run}, ¬ (!u && !r.marks.touchesStep f.wiring i) = true →
      u = true ∨ r.marks.touchesStep f.wiring i = true := by
    intro i r hskip
    cases u with
    | true => exact .inl rfl
    | false => exact .inr (by simpa using hskip)
  fun_induction round f u l r with
  | case1 | case5 => cases hs
  | case2 _ _ _ _ ih | case6 _ _ _ _ _ _ _ _ ih => exact ih hs
  | case3 i l r hskip | case4 i l r hskip =>
    cases hs
    exact ⟨i, l, rfl, hdue hskip⟩

/-- A sweep that nothing stopped ends with a round that kept nothing. -/
theorem rounds_ended (h : Wired f.graph f.wiring) (hl : ∀ j ∈ l, j ∈ f.wiring.order f.scope) :
    (rounds f u l r n).stop = none → (rounds f u l r n).run.again = [] := by
  refine rounds_induct h (motive := fun _ _ _ s => s.stop = none → s.run.again = []) ?_ ?_ hl r n
  · exact fun _ _ _ _ _ _ _ _ hended => hended
  · exact fun _ _ _ _ _ _ _ _ _ _ hrest => hrest

/-- Every round but the last runs a step. -/
theorem rounds_le (h : Wired f.graph f.wiring) (hl : ∀ j ∈ l, j ∈ f.wiring.order f.scope) :
    (rounds f u l r n).rounds + r.executed ≤ n + (rounds f u l r n).run.executed := by
  refine rounds_induct h (motive := fun r n _ s => s.rounds + r.executed ≤ n + s.run.executed) ?_ ?_ hl r n
  · intro u l r n r' stop hl hround _
    have hcount := round_counts (u := u) h hl { r with again := [] }
    rw [hround] at hcount
    dsimp only at hcount ⊢
    omega
  · intro u l r n r' steps s _ _ hgrew hrest
    have hsame : (r'.renewed f).executed = r'.executed := rfl
    omega

/-- A sweep calls the derive functions of the steps that it runs. -/
theorem rounds_calls (h : Wired f.graph f.wiring) (hl : ∀ j ∈ l, j ∈ f.wiring.order f.scope) :
    (rounds f u l r n).run.calls = r.calls ++ (ran f u l r).flatMap f.graph.called := by
  refine rounds_induct h (motive := fun r _ steps s => s.run.calls = r.calls ++ steps.flatMap f.graph.called)
    ?_ ?_ hl r n
  · intro u l r n r' stop hl hround _
    have hcalls := round_calls (u := u) h hl { r with again := [] }
    rw [hround] at hcalls
    exact hcalls
  · intro u l r n r' steps s hl hround _ hrest
    have hcalls := round_calls (u := u) h hl { r with again := [] }
    rw [hround] at hcalls
    rw [hrest, List.flatMap_append, ← List.append_assoc, ← hcalls]
    rfl

end Pass

/-! ## Passes -/

namespace Executor

variable {e : Executor} {late : Nat → Bool} {ctx : Context} {req : Request} {d : Diagnostics}

/-- The step cap stops a pass when it is about to run the step. -/
def StopsAt (late : Nat → Bool) (e : Executor) (ctx : Context) (req : Request) (i : StepId) : Prop :=
  e.idle ctx req = false ∧ ∃ rest, (e.sweep late ctx req).stop = some (.cap .cycleDetected (i :: rest))

/-- How far a pass goes. -/
structure Bounded (late : Nat → Bool) (e : Executor) (ctx : Context) (req : Request) (d : Diagnostics) : Prop where
  /-- It counts the steps that it evaluates, -/
  counted : (e.passUnder late ctx req d).outcome.summary.executedSteps = (e.ran late ctx req).length
  /-- calls the derive functions of those, -/
  calls : (e.passUnder late ctx req d).calls = (e.ran late ctx req).flatMap e.graph.called
  /-- and evaluates no more of them than its cap, in no more rounds but one. -/
  capped : (e.ran late ctx req).length ≤ req.config.stepCapFor (e.wiring.scopeSize req.scope)
  rounds : (e.passUnder late ctx req d).outcome.summary.rounds ≤ (e.ran late ctx req).length + 1
  /-- Unless it is stopped, it goes on until a round keeps nothing for another. -/
  ended : (e.sweep late ctx req).stop = none → (e.sweep late ctx req).run.again = []
  /-- Where its step cap stops it, it reports so, has run as many steps as the cap, and
  hands back work that begins with the step it stopped at. -/
  stopped : ∀ i, StopsAt late e ctx req i → (e.passUnder late ctx req d).outcome.degrade = some .cycleDetected ∧
    (e.passUnder late ctx req d).outcome.summary.stable = false ∧
    (e.ran late ctx req).length = req.config.stepCapFor (e.wiring.scopeSize req.scope) ∧
    ∃ work o, (e.passUnder late ctx req d).outcome.carried = some work ∧ e.graph.out? i = some o ∧
      work.forcedOuts.head? = some o
  /-- And it reports so in no other case. -/
  reported : (e.passUnder late ctx req d).outcome.degrade = some .cycleDetected → ∃ i, StopsAt late e ctx req i

/-- What a sweep that was stopped leaves behind names the step it was about to run. -/
theorem leftBehind_head (h : e.Sound) (late : Nat → Bool) (ctx : Context) (req : Request) {reason : Degrade}
    {i : StepId} {rest : List StepId} (hs : (e.sweep late ctx req).stop = some (.cap reason (i :: rest))) :
    ∃ work o, e.leftBehind (e.sweep late ctx req) = some work ∧ e.graph.out? i = some o ∧
      work.forcedOuts.head? = some o := by
  obtain ⟨u, l, r, n, hl, -, hsweep⟩ := exists_last_round h late ctx req
  rw [hsweep] at hs ⊢
  dsimp only at hs
  obtain ⟨j, later, hrest, hdue⟩ := Pass.round_rest_due hs
  obtain ⟨rfl, rfl⟩ := List.cons.inj hrest
  have hscope : i ∈ e.wiring.order req.scope :=
    hl i ((Pass.ranIn_append_rest hs).subset (List.mem_append_right _ List.mem_cons_self))
  obtain ⟨s, p, hstep, hp⟩ := h.wired.exists_out hscope
  have hpath : e.graph.table.path? (e.wiring.out i) = some p := h.wired.out_eq hstep ▸ hp
  -- it was due, so it is kept, first of all that is left
  have hkept : (u || (Pass.round (frame late e req) u l r).1.marks.touchesStep e.wiring i) = true := by
    rcases hdue with hu | ht
    · rw [hu, Bool.true_or]
    · have ht : (Pass.round (frame late e req) u l r).1.marks.touchesStep e.wiring i = true := ht
      rw [ht, Bool.or_true]
  have hne : ∀ roots outs, Carried.isEmpty ⟨roots, p :: outs⟩ = false := fun roots outs => by simp [Carried.isEmpty]
  have hpaths : ∀ ids, e.pathsOf (e.wiring.out i :: ids) = p :: e.pathsOf ids := fun ids => by
    simp only [pathsOf, List.filterMap_cons, hpath]
  unfold leftBehind
  dsimp only
  rw [hs]
  dsimp only
  rw [List.filter_cons, if_pos hkept, List.map_cons, hpaths, hne, if_neg Bool.false_ne_true]
  exact ⟨_, p, rfl, Graph.out?_eq_some.2 ⟨s, hstep, hp⟩, rfl⟩

/-- A sweep that its step cap stopped ran as many steps, and had some left. -/
theorem sweep_capped (h : e.Sound) {rest : List StepId}
    (hs : (e.sweep late ctx req).stop = some (.cap .cycleDetected rest)) :
    (frame late e req).cap ≤ (e.sweep late ctx req).run.executed ∧ rest ≠ [] := by
  obtain ⟨u, l, r, n, -, -, hsweep⟩ := exists_last_round h late ctx req
  rw [hsweep] at hs ⊢
  exact Pass.round_capped hs

/-- A pass that is idle evaluates nothing. -/
theorem bounded_of_idle (hidle : e.idle ctx req = true) (late : Nat → Bool) (d : Diagnostics)
    (hended : (e.sweep late ctx req).stop = none → (e.sweep late ctx req).run.again = []) :
    Bounded late e ctx req d := by
  have hran : e.ran late ctx req = [] := by rw [ran, hidle, if_pos rfl]
  obtain ⟨-, -, -, hdegrade, -⟩ := @passUnder_idle e late ctx req d hidle
  have hnone : (e.passUnder late ctx req d).outcome.degrade = none := hdegrade
  refine ⟨?_, ?_, ?_, ?_, hended, fun i hstops => ?_, fun hcycle => ?_⟩
  · rw [hran, passUnder_of_idle d hidle]
    rfl
  · rw [hran, passUnder_of_idle d hidle]
    rfl
  · rw [hran]
    exact Nat.zero_le _
  · rw [passUnder_of_idle d hidle]
    exact Nat.zero_le _
  · cases hidle.symm.trans hstops.1
  · cases hnone.symm.trans hcycle

/-- The bounds hold of every pass. -/
theorem bounded (h : e.Sound) (late : Nat → Bool) (ctx : Context) (req : Request) (d : Diagnostics) :
    Bounded late e ctx req d := by
  have hcounted := (@pass_counts e late ctx req d h).1
  have hcap := passUnder_steps_le late e ctx req d
  rw [hcounted] at hcap
  have hended : (e.sweep late ctx req).stop = none → (e.sweep late ctx req).run.again = [] :=
    Pass.rounds_ended (f := frame late e req) h.wired (choice_mem h ctx req)
  cases hidle : e.idle ctx req with
  | true => exact bounded_of_idle hidle late d hended
  | false =>
    have hran : e.ran late ctx req = Pass.ran (frame late e req) ((e.choice ctx req).executed = .full)
        (e.choice ctx req).steps (e.start ctx req) := by rw [ran, hidle, if_neg Bool.false_ne_true]
    have hexecuted : (e.sweep late ctx req).run.executed = (e.ran late ctx req).length := by
      rw [← hcounted, passUnder_of_due d hidle]
      rfl
    have hdegrade : (e.passUnder late ctx req d).outcome.summary.degrade = stopDegrade (e.sweep late ctx req).stop :=
      passUnder_degrade hidle
    refine ⟨hcounted, ?_, hcap, ?_, hended, fun i hstops => ?_, fun hcycle => ?_⟩
    · rw [passUnder_calls hidle, hran]
      exact Pass.rounds_calls (f := frame late e req) h.wired (choice_mem h ctx req)
    · have hle : (e.sweep late ctx req).rounds + 0 ≤ 1 + (e.sweep late ctx req).run.executed :=
        Pass.rounds_le (f := frame late e req) h.wired (choice_mem h ctx req)
      rw [passUnder_rounds hidle]
      omega
    · obtain ⟨-, rest, hs⟩ := hstops
      have hcycle : (e.passUnder late ctx req d).outcome.summary.degrade = some .cycleDetected := by
        rw [hdegrade, hs]
        rfl
      refine ⟨hcycle, ?_, Nat.le_antisymm hcap (hexecuted ▸ (sweep_capped h hs).1), ?_⟩
      · rw [Summary.stable, hcycle]
        rfl
      · rw [passUnder_carried hidle]
        exact leftBehind_head h late ctx req hs
    · obtain ⟨rest, hs⟩ := capped_of_degrade (hdegrade.symm.trans hcycle)
      obtain ⟨i, later, rfl⟩ := List.exists_cons_of_ne_nil (sweep_capped h hs).2
      exact ⟨i, hidle, later, hs⟩

end Executor

/-! ## Units -/

namespace Instance

namespace Run

variable {g : Graph} {w : Wiring} {r r' r₁ r₂ r₃ : Run} {l l' : List StepId} {n n' : Nat}

/-- From one run to a later one of the same unit, in so many passes at most, the derive
functions of the steps were called. -/
structure Spans (g : Graph) (n : Nat) (l : List StepId) (r r' : Run) : Prop where
  passes : r'.report.passes ≤ r.report.passes + n
  calls : r'.calls = r.calls ++ l.flatMap g.called

/-- Changes to a run without a pass. -/
theorem Spans.of_eq (hpasses : r'.report.passes = r.report.passes) (hcalls : r'.calls = r.calls) : Spans g 0 [] r r' :=
  ⟨Nat.le_of_eq hpasses, by rw [hcalls, List.flatMap_nil, List.append_nil]⟩

theorem Spans.trans (h : Spans g n l r₁ r₂) (h' : Spans g n' l' r₂ r₃) : Spans g (n + n') (l ++ l') r₁ r₃ := by
  have hpasses := h.passes
  have hpasses' := h'.passes
  refine ⟨by omega, ?_⟩
  rw [h'.calls, h.calls, List.flatMap_append, List.append_assoc]

theorem Spans.mono (h : Spans g n l r₁ r₂) (hn : n ≤ n') : Spans g n' l r₁ r₂ :=
  ⟨Nat.le_trans h.passes (Nat.add_le_add_left hn _), h.calls⟩

theorem pass_span (h : Works g w r) (scope : Scope) (carried : Option Carried) :
    Spans g 1 (r.ran scope carried) r (r.pass scope carried).2 := by
  by_cases hb : r.budget = some 0
  · rw [pass_spent hb, ran, if_pos hb]
    refine Spans.mono (n := 0) ?_ (Nat.zero_le 1)
    unfold leave
    dsimp only
    split <;> split <;> exact .of_eq rfl rfl
  · obtain rfl := h.graph
    have hcalls : (r.passed scope carried).calls = (r.inst.executor.ran _ _ _).flatMap _ :=
      (Executor.bounded h.executor _ _ _ _).calls
    rw [ran, if_neg hb]
    refine ⟨?_, ?_⟩
    · unfold pass
      rw [if_neg hb]
      dsimp only
      split <;> split <;> exact Nat.le_refl _
    · rw [← hcalls]
      unfold pass
      rw [if_neg hb]
      dsimp only
      split <;> rfl

theorem putBy_span (r : Run) (d : DirtySet) : Spans g 0 [] r (r.putBy d) := by
  unfold putBy
  split <;> exact .of_eq rfl rfl

theorem settleBack_span (h : Works g w r) (changed : List Path) :
    Spans g 1 (r.backRan changed) r (r.settleBack changed) := by
  unfold backRan
  rcases settleBack_cases r changed with ⟨ha, he⟩ | ⟨ha, he⟩
  · rw [he, if_neg (Bool.eq_false_iff.1 ha)]
    exact (Spans.of_eq rfl rfl).mono (Nat.zero_le 1)
  · have hon : Spans g 0 [] r (r.on (.ofPaths changed)) := .of_eq rfl rfl
    have hback : Spans g 1 ((r.on (.ofPaths changed)).ran .immediate none) r (r.back changed).2 :=
      hon.trans (pass_span (r := r.on (.ofPaths changed)) (h.congr rfl) .immediate none)
    rw [he, if_pos ha, ← List.append_nil ((r.on (.ofPaths changed)).ran .immediate none)]
    exact hback.trans (putBy_span _ _)

theorem turn_span (h : Works g w r) (lane : Option Lane) (o : Option Deferred) :
    Spans g 2 (r.turnRan lane o) r (r.turn lane o) := by
  cases o with
  | none =>
    have hlane : Spans g 0 [] r (r.withLane lane) := .of_eq rfl rfl
    exact hlane.mono (Nat.zero_le 2)
  | some work =>
    have htaken : Works g w ((r.withLane lane).takeUp work) := h.congr rfl
    have hup : Spans g 0 [] r ((r.withLane lane).takeUp work) := .of_eq rfl rfl
    have hahead : Spans g 1 (((r.withLane lane).takeUp work).ran .deferred work.carried) r
        ((r.withLane lane).ahead work).2 := hup.trans (pass_span htaken .deferred work.carried)
    have hback := settleBack_span (pass_works htaken .deferred work.carried)
      (written ((r.withLane lane).ahead work).1)
    show Spans g 2 ((r.withLane lane).deferredRan work) r ((r.withLane lane).runDeferred work)
    rw [runDeferred_eq]
    exact hahead.trans hback

end Run

/-- How far the passes of a unit go. -/
structure Bounded (i : Instance) (clock : Nat → Nat → Bool) (u : WorkUnit) (now : Time) (d : Diagnostics)
    (budget : Option Nat) : Prop where
  passes : (i.applyUnder clock u now d budget).report.passes ≤ 3
  /-- The unit reports the steps that they run, -/
  counted : (i.applyUnder clock u now d budget).report.steps = (i.ran clock u now d budget).length
  /-- and they call the derive functions of those. -/
  calls : (i.applyUnder clock u now d budget).calls = (i.ran clock u now d budget).flatMap i.executor.graph.called
  /-- Together they keep within a budget. -/
  within : ∀ b ∈ budget, (i.ran clock u now d budget).length ≤ b

theorem bounded {i : Instance} (hs : i.executor.Sound) (clock : Nat → Nat → Bool) (u : WorkUnit) (now : Time)
    (d : Diagnostics) (budget : Option Nat) : Bounded i clock u now d budget := by
  have hworks : Run.Works i.executor.graph i.executor.wiring (i.begin clock u d budget) := begin_works hs
  have hfresh : (i.begin clock u d budget).report.passes = 0 ∧ (i.begin clock u d budget).calls = [] := by
    unfold begin
    dsimp only
    cases i.folded u <;> exact ⟨rfl, rfl⟩
  have hspan : Run.Spans i.executor.graph 3 (i.ran clock u now d budget) (i.begin clock u d budget)
      (i.converge u now (i.begin clock u d budget)) := by
    by_cases hm : i.deferredMode = .inline
    · rw [converge_inline hm, ran_inline hm]
      exact (Run.pass_span hworks .all (i.carriedAll u)).mono (by decide)
    · rw [(converge_turned hs hm clock u now d budget).1, ran_sliced hm]
      exact (Run.pass_span hworks .immediate u.change.carried).trans
        (Run.turn_span (Run.pass_works hworks .immediate u.change.carried) _ _)
  have hcounted : (i.applyUnder clock u now d budget).report.steps = (i.ran clock u now d budget).length :=
    applyUnder_counts hs now
  refine ⟨?_, hcounted, ?_, fun b hb => ?_⟩
  · have hpasses := hspan.passes
    rw [hfresh.1] at hpasses
    exact hpasses
  · have hcalls := hspan.calls
    rw [hfresh.2] at hcalls
    exact hcalls
  · rw [← hcounted]
    exact (applyUnder_answers clock i u now d budget).steps b hb

end Instance

/-- For every compiled declaration, caps bound every pass of its executors and every unit
of its instances. -/
theorem Compiled.caps_bound {decl : Declaration} {c : Compiled} (hc : c.Of decl) :
    (∀ e, Executor.Reached c e → ∀ late ctx req d, Executor.Bounded late e ctx req d) ∧
      ∀ i, Instance.Lived c i → ∀ clock u now d budget, Instance.Bounded i clock u now d budget :=
  ⟨fun _ he late ctx req d => Executor.bounded (he.sound hc) late ctx req d,
    fun _ hi clock u now d budget => Instance.bounded hi.works.1 clock u now d budget⟩

namespace Loop

/-- An instance whose steps read each other. -/
def inst : Instance := .ofCompiled ⟨"loop", "1"⟩ compiled .empty Relay.inlined (Relay.state 1 1 1)

/-- The pass that its cap of one step stops at `a`, and a unit under a budget of two. -/
theorem loop_bounded :
    compiled.Of declaration ∧ Executor.Reached compiled executor ∧ Instance.Lived compiled inst ∧
      Executor.StopsAt (fun _ => false) executor Relay.moved (request 1) 0 ∧
      Executor.Bounded (fun _ => false) executor Relay.moved (request 1) (.ofReporting .builtin false) ∧
      Instance.Bounded inst (fun _ _ => false) Relay.unit 0 (.ofReporting .builtin false) (some 2) := by
  have hreached : Executor.Reached compiled executor := .ofCompiled _
  have hlived : Instance.Lived compiled inst := .registered _ _ _ _ compiled_of
  refine ⟨compiled_of, hreached, hlived, ⟨by cbv, [1], ?_⟩, (Compiled.caps_bound compiled_of).1 _ hreached _ _ _ _,
    (Compiled.caps_bound compiled_of).2 _ hlived _ _ _ _ _⟩
  cbv

end Loop

end Settle
