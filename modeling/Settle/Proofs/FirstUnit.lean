/-
  Settle.Proofs.FirstUnit — what the first unit of an instance settles.

  A registered instance keeps the state it was given; its derived fields are left to the
  first unit, whose pass is to run in full (`Pass.decide_cold`). But a pass that finds
  none of its roots among the paths of the table never comes to that decision, and the
  second unit is not the first. So a first unit settles every step exactly when one of its
  roots resolves, or every step was settled already (`Instance.first_unit_settles`). After
  one that writes aside of the table derived fields stay as they were registered.
-/

import Settle.Proofs.Confluence

namespace Settle

/-- In mode `auto` the first transaction runs every step. -/
theorem Pass.decide_cold (w : Wiring) (cache : PlanCache) {txnSeq : Nat} (hseq : txnSeq ≤ 1) (scope : Scope)
    {config : Policy.Convergence} (hauto : config.mode = .auto) (dirty : DirtyIds) (forced : List StepId) :
    (decide w cache txnSeq scope config dirty forced).executed = .full := by
  unfold decide
  rw [hauto]
  simp [hseq]

namespace Executor

variable {e : Executor} {late : Nat → Bool} {ctx : Context} {req : Request} {d : Diagnostics}

/-- Without carried work a pass is idle when its scope is empty or no root resolves. -/
theorem idle_of_fresh (hcarried : req.carried = none) :
    e.idle ctx req = true ↔ e.wiring.order req.scope = [] ∨ (ctx.dirty.resolve e.graph.table).isEmpty = true := by
  unfold idle rootsOf forcedSteps dirtyOf Wiring.scopeSize
  rw [hcarried]
  simp

/-- A stable pass that runs in full settles its scope, whatever it began with. -/
theorem settled_of_full (h : e.Sound) (hl : e.graph.Local) (hr : e.graph.Reflexive) (hself : e.graph.SelfFree)
    (hfit : State.fitsAll ctx.draft (e.writes late ctx req))
    (hfull : (e.passUnder late ctx req d).outcome.summary.executed = .full)
    (hstable : (e.passUnder late ctx req d).outcome.summary.stable = true) :
    ∀ j ∈ e.wiring.order req.scope, e.graph.Settled (e.passUnder late ctx req d).context.draft j := by
  intro j hj
  by_contra hn
  have hok : (e.passUnder late ctx req d).outcome.summary.degrade ≠ some .deriveFailed := fun hfail => by
    rw [Summary.stable, hfail] at hstable
    cases hstable
  have howed := pass_accounts_full (X := fun _ => False) h hl hr hself (fun _ _ _ => .inr (.inr hfull)) hfit hok hj hn
  obtain ⟨work, hwork, -⟩ := howed.resolve_left id
  rw [carried_of_stable hstable] at hwork
  cases hwork

end Executor

namespace WorkUnit

/-- Commits without carried and deferred work merge into a unit without either. -/
theorem plain_of_merge? {cs : List Commit} {u : WorkUnit} (hu : merge? cs = some u)
    (hcs : ∀ c ∈ cs, c.change.carried = none ∧ c.change.deferred = none) :
    u.change.carried = none ∧ u.change.deferred = none := by
  have hfoldl : ∀ (rest : List Commit) (u : WorkUnit), (∀ c ∈ rest, c.change.carried = none ∧ c.change.deferred = none) →
      u.change.carried = none ∧ u.change.deferred = none →
      (rest.foldl add u).change.carried = none ∧ (rest.foldl add u).change.deferred = none := by
    intro rest
    induction rest with
    | nil => exact fun u _ h => h
    | cons c rest ih =>
      intro u hrest h
      obtain ⟨hcarried, hdeferred⟩ := hrest c List.mem_cons_self
      refine ih (u.add c) (fun c hc => hrest c (List.mem_cons_of_mem _ hc)) ⟨?_, ?_⟩
      · show Carried.merge? u.change.carried c.change.carried = none
        rw [h.1, hcarried]
        rfl
      · show Deferred.merge? u.change.deferred c.change.deferred = none
        rw [h.2, hdeferred]
        rfl
  cases cs with
  | nil => cases hu
  | cons c rest =>
    obtain rfl := Option.some.inj hu
    exact hfoldl rest (ofCommit c) (fun c hc => hcs c (List.mem_cons_of_mem _ hc)) (hcs c List.mem_cons_self)

end WorkUnit

namespace Instance

variable {c : Compiled} {i : Instance} {u : WorkUnit}

/-- An instance of the module on which no unit has run: commits of users and copies of
links wait, it follows new graphs of its module, its policies and its lane may change. -/
inductive Untouched : Compiled → Instance → Prop
  | registered (key : Key) (c : Compiled) (options : Policy.Overrides) (policies : Policy.Policies) (initial : Value) :
      Untouched c (.ofCompiled key c options policies initial)
  | enqueue {c : Compiled} {i : Instance} (cm : Commit) : Untouched c i → cm.change.carried = none →
      cm.change.deferred = none → Untouched c (i.enqueue cm)
  | rebind {c : Compiled} {i : Instance} (c' : Compiled) : Untouched c i → Untouched c' (i.rebind c')
  | adjust {c : Compiled} {i : Instance} (policies : Policy.Policies) (lane : Option Lane) : Untouched c i →
      Untouched c { i with policies := policies, lane := lane }

/-- It has planned nothing, counts no unit, and all that waits is plain. -/
theorem Untouched.fresh (h : Untouched c i) : i.executor.graph = c.graph ∧ i.executor.wiring = c.wiring ∧
    i.executor.cache.entries = [] ∧ i.txnSeq = 0 ∧
    ∀ cm ∈ i.queue, cm.change.carried = none ∧ cm.change.deferred = none := by
  induction h with
  | registered key c options policies initial => exact ⟨rfl, rfl, rfl, rfl, fun _ h => absurd h List.not_mem_nil⟩
  | enqueue cm _ hcarried hdeferred ih =>
    obtain ⟨hg, hw, hcache, hseq, hq⟩ := ih
    refine ⟨hg, hw, hcache, hseq, fun cm' hcm => ?_⟩
    rcases List.mem_append.1 hcm with hcm | hcm
    · exact hq cm' hcm
    · exact List.mem_singleton.1 hcm ▸ ⟨hcarried, hdeferred⟩
  | rebind c' _ ih =>
    obtain ⟨-, -, hcache, hseq, hq⟩ := ih
    refine ⟨rfl, rfl, ?_, hseq, hq⟩
    show (PlanCache.syncGeneration _ _).entries = []
    unfold PlanCache.syncGeneration
    split
    · exact hcache
    · rfl
  | adjust policies lane _ ih => exact ih

theorem Untouched.sound {decl : Declaration} (hc : c.Of decl) (h : Untouched c i) : i.executor.Sound := by
  obtain ⟨hg, hw, hcache, -⟩ := h.fresh
  refine ⟨?_, fun k plan hm => ?_⟩
  · rw [hg, hw]
    exact hc.wired
  · rw [hcache] at hm
    exact absurd hm List.not_mem_nil

/-! ## The first unit -/

namespace Run

variable {r : Run} {scope : Scope} {carried : Option Carried}

/-- A stable pass that was run did not degrade. -/
theorem degrade_of_stable (hb : r.budget ≠ some 0) (hs : (r.pass scope carried).2.report.stable = true) :
    (r.passed scope carried).outcome.summary.stable = true := by
  have hnone : (r.passed scope carried).outcome.degrade = none := by
    by_contra hne
    obtain ⟨deg, hdeg⟩ := Option.ne_none_iff_exists'.1 hne
    unfold pass at hs
    rw [if_neg hb] at hs
    unfold passed at hdeg
    dsimp only at hs
    rw [hdeg] at hs
    split at hs <;> cases hs
  rw [Summary.stable]
  exact Option.isNone_iff_eq_none.2 hnone

/-- A pass that was left out of a stable unit had nothing to do. -/
theorem isEmpty_of_stable (hs : (r.leave scope carried).report.stable = true) : r.context.dirty.isEmpty = true := by
  cases he : r.context.dirty.isEmpty with
  | true => rfl
  | false =>
    unfold leave at hs
    simp only [he, Bool.false_and, Bool.false_eq_true, if_false] at hs
    cases hs

/-- A stable first pass over all steps settles them exactly when a root resolves, or there
was nothing to settle. -/
theorem first_pass_settles {g : Graph} {w : Wiring} {v : Value} {p₀ qs : List Patch} (hl : g.Local) (hr : g.Reflexive)
    (hself : g.SelfFree) (hfit : State.fitsAll v (g.writesOf qs)) (h : Tracks g w v p₀ r)
    (hps : (r.pass .all none).2.context.patches <+: p₀ ++ qs) (hseq : r.context.txnSeq ≤ 1)
    (hauto : r.inst.policies.convergence.value.mode = .auto) (hs : (r.pass .all none).2.report.stable = true) :
    (∀ j ∈ w.order .all, g.Settled (r.pass .all none).2.context.draft j) ↔
      (r.context.dirty.resolve g.table).isEmpty = false ∨ ∀ j ∈ w.order .all, g.Settled r.context.draft j := by
  by_cases hb : r.budget = some 0
  · -- left out: there was no root to resolve
    rw [pass_spent hb] at hs ⊢
    rw [leave_context, resolve_of_isEmpty (isEmpty_of_stable hs)]
    simp
  obtain ⟨-, -, hc⟩ := pass_ran hb .all none
  have hstable := degrade_of_stable hb hs
  have hok : (r.passed .all none).outcome.degrade ≠ some .deriveFailed := fun hfail => by
    rw [Summary.stable, show (r.passed .all none).outcome.summary.degrade = _ from hfail] at hstable
    cases hstable
  have hfits := fits_of_tracks hfit h hb hok hps
  obtain rfl := h.graph
  obtain rfl := h.wiring
  rw [hc]
  cases hidle : r.inst.executor.idle r.context ⟨.all, r.config .all, none⟩ with
  | true =>
    have hctx : (r.passed .all none).context = r.context := (Executor.passUnder_idle hidle).1
    rw [hctx]
    rcases (Executor.idle_of_fresh rfl).1 hidle with hnil | hempty
    · simp [show r.inst.executor.wiring.order .all = [] from hnil]
    · simp [hempty]
  | false =>
    have hfull : (r.passed .all none).outcome.summary.executed = .full := by
      refine (Executor.passUnder_executed hidle).trans (Pass.decide_cold _ _ hseq _ ?_ _ _)
      unfold config
      split <;> exact hauto
    have hroots : (r.context.dirty.resolve r.inst.executor.graph.table).isEmpty = false := by
      refine Bool.eq_false_iff.2 fun hempty => ?_
      rw [(Executor.idle_of_fresh rfl).2 (.inr hempty)] at hidle
      cases hidle
    exact iff_of_true (Executor.settled_of_full h.executor hl hr hself hfits hfull hstable) (.inl hroots)

end Run

section

variable {clock : Nat → Nat → Bool} {d : Diagnostics} {budget : Option Nat}

theorem begin_context (hdeferred : u.change.deferred = none) : (i.begin clock u d budget).context =
    ⟨u.change.applyTo i.state, u.change.patches, u.change.dirty, i.txnSeq + 1⟩ := by
  unfold begin folded
  rw [hdeferred, ite_self]

/-- What a unit commits and tells is what its passes come to. -/
theorem applyUnder_converge (clock : Nat → Nat → Bool) (i : Instance) (u : WorkUnit) (now : Time) (d : Diagnostics)
    (budget : Option Nat) :
    (i.applyUnder clock u now d budget).inst.state = (i.converge u now (i.begin clock u d budget)).context.draft ∧
    (i.applyUnder clock u now d budget).report.stable = (i.converge u now (i.begin clock u d budget)).report.stable ∧
    (i.applyUnder clock u now d budget).report.patches = (i.converge u now (i.begin clock u d budget)).context.patches :=
  ⟨(applyUnder_leaves clock i u now d budget).state, rfl, rfl⟩

theorem deferredMode_of_off (hoff : i.policies.convergence.value.timeSlicing.enabled = false) :
    i.deferredMode = .inline := by
  unfold deferredMode sliced
  rw [hoff]
  rfl

end

/-- A stable first unit in mode `auto` without slicing leaves every step settled exactly
when one of its roots resolves, or its writes alone left every step settled. -/
theorem first_unit_settles {decl : Declaration} (hc : c.Of decl) (hl : c.graph.Local) (hr : c.graph.Reflexive)
    (hself : c.graph.SelfFree) (h : Untouched c i) (hauto : i.policies.convergence.value.mode = .auto)
    (hoff : i.policies.convergence.value.timeSlicing.enabled = false) (hu : i.takeUnit.1 = some u)
    (clock : Nat → Nat → Bool) (now : Time) (d : Diagnostics) (budget : Option Nat)
    (hfit : State.fitsAll (u.change.applyTo i.state) (c.graph.writesOf
      ((i.takeUnit.2.applyUnder clock u now d budget).report.patches.drop u.change.patches.length)))
    (hstable : (i.takeUnit.2.applyUnder clock u now d budget).report.stable = true) :
    (∀ j ∈ c.wiring.order .all, c.graph.Settled (i.takeUnit.2.applyUnder clock u now d budget).inst.state j) ↔
      (u.change.dirty.resolve c.graph.table).isEmpty = false ∨
        ∀ j ∈ c.wiring.order .all, c.graph.Settled (u.change.applyTo i.state) j := by
  have hsound := h.sound hc
  obtain ⟨hg, hw, -, hseq, hq⟩ := h.fresh
  obtain ⟨hcarried, hdeferred⟩ := WorkUnit.plain_of_merge? hu hq
  have hm : i.takeUnit.2.deferredMode = .inline := deferredMode_of_off hoff
  have hnone : i.takeUnit.2.carriedAll u = none := by
    unfold carriedAll folded
    rw [hdeferred, ite_self, hcarried]
  obtain ⟨hstate, hstab, hpatches⟩ := applyUnder_converge clock i.takeUnit.2 u now d budget
  rw [converge_inline hm, hnone] at hstate hstab hpatches
  rw [hstate]
  rw [hstab] at hstable
  rw [hpatches] at hfit
  have htracks : Run.Tracks c.graph c.wiring (u.change.applyTo i.state) u.change.patches
      (i.takeUnit.2.begin clock u d budget) := by
    rw [← hg, ← hw]
    exact begin_tracks (i := i.takeUnit.2) hsound
  have hps : ((i.takeUnit.2.begin clock u d budget).pass .all none).2.context.patches <+: u.change.patches ++
      ((i.takeUnit.2.begin clock u d budget).pass .all none).2.context.patches.drop u.change.patches.length := by
    have hfollows : Run.Follows c.graph _ _ := Run.pass_follows (i.takeUnit.2.begin clock u d budget) .all none
    obtain ⟨qs, hqs⟩ := hfollows.patches
    rw [← hqs, begin_patches, List.drop_left]
  have hsettles := Run.first_pass_settles hl hr hself hfit htracks hps
    (by rw [begin_context hdeferred]; exact Nat.le_of_eq (congrArg (· + 1) hseq)) (by rw [begin_inst]; exact hauto) hstable
  rw [begin_context hdeferred] at hsettles
  exact hsettles

end Instance

namespace Relay

/-- A relay registered with fields that do not follow `x`. -/
def registered : Instance :=
  .ofCompiled ⟨"relay", "1"⟩ compiled .empty (Policy.Policies.resolve .builtin "relay" .empty none) (state 2 1 1)

def note : Path := ⟨["note"], by decide⟩

/-- A first unit that writes `x` settles both steps. -/
theorem first_unit_settles_both :
    (after (registered.enqueue (.set x (.int 3)))).inst.state = state 3 3 3 ∧
    ∀ j ∈ compiled.wiring.order .all, graph.Settled (after (registered.enqueue (.set x (.int 3)))).inst.state j := by
  have hun : Instance.Untouched compiled (registered.enqueue (.set x (.int 3))) :=
    .enqueue _ (.registered _ _ _ _ _) rfl rfl
  refine ⟨by cbv, (Instance.first_unit_settles compiled_of local_ reflexive selfFree hun ?_ ?_ rfl (fun _ _ => false) 0
    (.ofReporting .builtin false) none ?_ ?_).2 (.inl ?_)⟩
  · cbv
  · cbv
  · cbv
  · cbv
  · cbv

/-- A first unit that writes aside of the table is stable and settles nothing, and so is
the one after it. -/
theorem first_unit_settles_none :
    Instance.Untouched compiled (registered.enqueue (.set note (.int 1))) ∧
    registered.policies.convergence.value.mode = .auto ∧
    registered.policies.convergence.value.timeSlicing.enabled = false ∧
    (after (registered.enqueue (.set note (.int 1)))).report.stable = true ∧
    ¬ graph.Settled (after (registered.enqueue (.set note (.int 1)))).inst.state 0 ∧
    (after ((after (registered.enqueue (.set note (.int 1)))).inst.enqueue (.set note (.int 2)))).report.stable = true ∧
    ¬ graph.Settled (after ((after (registered.enqueue (.set note (.int 1)))).inst.enqueue
      (.set note (.int 2)))).inst.state 0 := by
  refine ⟨.enqueue _ (.registered _ _ _ _ _) rfl rfl, ?_, ?_, ?_, ?_, ?_, ?_⟩
  · cbv
  · cbv
  · cbv
  · cbv
    intro h
    cases h
  · cbv
  · cbv
    intro h
    cases h

end Relay

end Settle
