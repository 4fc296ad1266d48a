/-
  Settle.Proofs.Carry — a pass forgets no unsettled step (see `Settle.Executor`).

  All along a round an unsettled step of the scope is still to come, picked and due, or
  it was moved by a field that is kept for another round (`Kept`). A round that ends
  hands the second kind to the next one, which marks those fields anew; a sweep that is
  stopped hands both back as carried work (`rounds_accounted`). So a pass that returns
  without a derive failure leaves each step of its scope settled or owed by what it
  carries, whatever its cap, its clock and the choice of its steps
  (`pass_forgets_no_step`).
-/

import Settle.Proofs.Executor

namespace Settle

namespace Pass

variable {f : Frame} {u : Bool} {P : StepId → Bool} {X : StepId → Prop} {v : Value}

/-- What a round keeps when the steps of `L` are still to come. -/
structure Kept (f : Frame) (u : Bool) (P : StepId → Bool) (X : StepId → Prop) (v : Value) (L : List StepId)
    (r : Run) : Prop where
  behind : ∃ L₀, f.wiring.order f.scope = L₀ ++ L ∧ Behind f X L₀ r
  ahead : Ahead f u P X L r
  replays : Replays f.graph v r.trail
  again : ∀ k ∈ r.again, k < f.graph.table.size
  moved : Moved f v r

/-- Each unsettled step of the scope is excused or, where the sweep was stopped at a cap,
among what it leaves behind. -/
def LeftOver (f : Frame) (X : StepId → Prop) (s : Swept) : Prop :=
  match s.stop with
  | none => ∀ j ∈ f.wiring.order f.scope, ¬ f.graph.Settled s.run.draft j → X j
  | some (.cap _ rest) => ∀ j ∈ f.wiring.order f.scope, ¬ f.graph.Settled s.run.draft j →
      X j ∨ (∃ k ∈ s.run.again, Plan.Hits f.graph f.wiring f.scope k j) ∨
        j ∈ rest ∧ (s.unconditional = true ∨ s.run.marks.touchesStep f.wiring j = true)
  | some (.failed _ _) => True

/-- What is left unsettled by a sweep from the state `v` is accounted for. -/
structure Accounted (f : Frame) (X : StepId → Prop) (v : Value) (s : Swept) : Prop where
  leftOver : LeftOver f X s
  moved : Moved f v s.run

/-- What a round keeps for another one is due in it. -/
theorem Kept.renewed (h : Wired f.graph f.wiring) {r : Run} (hk : Kept f u P X v [] r) :
    Ahead f false (nextRound f r).contains X (f.wiring.order f.scope) (r.renewed f) := by
  have hm := marks_renewed h hk.ahead.marks hk.again
  have hplan := nextRound_isPlan h hk.again
  obtain ⟨L₀, hL, hb⟩ := hk.behind
  rw [List.append_nil] at hL
  refine ⟨⟨_, hm⟩, fun j hj hn => (hb j (hL ▸ hj) hn).imp id fun ⟨k, hka, hhit⟩ => ?_⟩
  rw [List.contains_iff_mem, hplan.mem_iff]
  exact ⟨.root hka hhit, .inr (Plan.touchesStep_of_hits h hm hka hhit)⟩

theorem Kept.start {r : Run} (ha : Ahead f u P X (f.wiring.order f.scope) r) (hrep : Replays f.graph v r.trail)
    (hmv : Moved f v r) (hnone : r.again = []) : Kept f u P X v (f.wiring.order f.scope) r :=
  ⟨⟨[], rfl, nofun⟩, ha, hrep, hnone ▸ nofun, hmv⟩

theorem Kept.skip {i : StepId} {L : List StepId} {r : Run} (hk : Kept f u P X v (i :: L) r)
    (hs : P i = true → u = false ∧ r.marks.touchesStep f.wiring i = false) : Kept f u P X v L r := by
  obtain ⟨L₀, hL, hb⟩ := hk.behind
  exact ⟨⟨L₀ ++ [i], by simp [hL], hb.skip (hk.ahead.settled_of_skip hs)⟩, hk.ahead.tail, hk.replays, hk.again,
    hk.moved⟩

/-- The round that ends a sweep accounts for each unsettled step. -/
theorem Rounded.accounted {out : Run × Option Stop}
    (hround : Rounded f P (Kept f u P X v) (f.wiring.order f.scope) out)
    (hstop : (out.2.isSome || out.1.again.isEmpty) = true) (n : Nat) : Accounted f X v ⟨out.1, out.2, n, u⟩ := by
  cases hround with
  | ended hk =>
    refine ⟨?_, hk.moved⟩
    obtain ⟨L₀, hL, hb⟩ := hk.behind
    rw [List.append_nil] at hL
    intro j hj hn
    rcases hb j (hL ▸ hj) hn with hX | ⟨k, hka, -⟩
    · exact hX
    · rw [List.isEmpty_iff.1 hstop] at hka
      cases hka
  | capped _ _ hk =>
    refine ⟨?_, hk.moved⟩
    obtain ⟨L₀, hL, hb⟩ := hk.behind
    intro j hj hn
    rw [hL] at hj
    rcases List.mem_append.1 hj with hj | hj
    · exact (hb j hj hn).imp id .inl
    · exact (hk.ahead.due j hj hn).imp id fun ⟨hPj, hu⟩ => .inr ⟨List.mem_filter.2 ⟨hj, hPj⟩, hu⟩
  | @failed r₀ r' i L' fault _ _ hk hst =>
    have ht : r'.trail = r₀.trail := by
      cases hst with
      | failed _ ht _ => exact ht
    have hd : r'.draft = r₀.draft := congrArg Trail.draft ht
    have hc : r'.changed = r₀.changed := congrArg Trail.changed ht
    refine ⟨trivial, ?_⟩
    unfold Moved
    rw [hd, hc]
    exact hk.moved

section

variable (h : Wired f.graph f.wiring) (hl : f.graph.Local) (hr : f.graph.Reflexive) (hself : f.graph.SelfFree)
  {ps : List Patch} (hfit : State.fitsAll v (f.graph.writesOf ps))

include h hl hr hself hfit

theorem Kept.run (hP : Closes f P) {i : StepId} {L : List StepId} {r r' : Run} (hk : Kept f u P X v (i :: L) r)
    (hi : P i = true) (hst : Stepped f i r (r', none)) (hps : r'.patches <+: ps) : Kept f u P X v L r' := by
  obtain ⟨L₀, hL, hb⟩ := hk.behind
  have hin : ∀ j ∈ L, j ∈ f.wiring.order f.scope := fun j hj =>
    hL ▸ List.mem_append_right _ (List.mem_cons_of_mem i hj)
  exact ⟨⟨L₀ ++ [i], by simp [hL], hb.run h hl hr hself hfit hL hk.replays hst hps⟩,
    hk.ahead.run h hl hP hfit hin hk.replays hi hst hps, hst.replays h.graph hk.replays, hst.again_lt hk.again,
    hk.moved.run h hl hfit hk.replays hst hps⟩

theorem round_kept (hP : Closes f P) {r : Run} (ha : Ahead f u P X (f.wiring.order f.scope) r)
    (hrep : Replays f.graph v r.trail) (hmv : Moved f v r) (hnone : r.again = [])
    (hps : (round f u ((f.wiring.order f.scope).filter P) r).1.patches <+: ps) :
    Rounded f P (Kept f u P X v) (f.wiring.order f.scope) (round f u ((f.wiring.order f.scope).filter P) r) := by
  refine round_rule h ?_ ?_ (fun _ hj => hj) hps (.start ha hrep hmv hnone)
  · intro i L r hk hs
    exact hk.skip hs
  · intro i L r r' hk _ hi hst hps'
    exact hk.run h hl hr hself hfit hP hi hst hps'

/-- However a sweep ends, each unsettled step is accounted for. -/
theorem rounds_accounted (hP : Closes f P) {r : Run} (ha : Ahead f u P X (f.wiring.order f.scope) r)
    (hrep : Replays f.graph v r.trail) (hmv : Moved f v r) {n : Nat}
    (hps : (rounds f u ((f.wiring.order f.scope).filter P) r n).run.patches <+: ps) :
    Accounted f X v (rounds f u ((f.wiring.order f.scope).filter P) r n) := by
  induction hN : f.cap - r.executed using Nat.strongRecOn generalizing u P r n with
  | _ N ih =>
  have hin : ∀ j ∈ (f.wiring.order f.scope).filter P, j ∈ f.wiring.order f.scope := fun j hj => (List.mem_filter.1 hj).1
  have hround := round_kept (r := { r with again := [] }) h hl hr hself hfit hP ⟨ha.marks, ha.due⟩ hrep hmv rfl
  have hgrew := round_grew (u := u) h hin r
  rw [rounds_eq h hin] at hps ⊢
  generalize round f u ((f.wiring.order f.scope).filter P) { r with again := [] } = out at hround hgrew hps ⊢
  dsimp only at hps ⊢
  split at hps
  · rename_i hstop
    rw [if_pos hstop]
    exact (hround hps).accounted hstop n
  · rename_i hstop
    rw [if_neg hstop]
    have hround := hround ((rounds_patches f false _ (out.1.renewed f) _).trans hps)
    cases hround with
    | ended hk =>
      have hplan := (nextRound_isPlan h hk.again).inOrder
      rw [hplan] at hps ⊢
      refine ih _ ?_ (.ofPlan (nextRound_isPlan h hk.again)) (hk.renewed h) hk.replays hk.moved hps rfl
      have hlt := hgrew hstop
      dsimp only at hlt
      simp only [Run.renewed]
      omega
    | capped => exact absurd rfl hstop
    | failed => exact absurd rfl hstop

end

end Pass

/-! ## Passes -/

namespace Executor

variable {e : Executor} {late : Nat → Bool} {ctx : Context} {req : Request} {d : Diagnostics}

/-- A pass with nothing due leaves all as it is. -/
theorem passUnder_idle (hidle : e.idle ctx req = true) :
    (e.passUnder late ctx req d).context = ctx ∧ (e.passUnder late ctx req d).outcome.carried = none ∧
      (e.passUnder late ctx req d).outcome.changed = [] ∧
      (e.passUnder late ctx req d).outcome.summary.degrade = none ∧
      (e.passUnder late ctx req d).outcome.summary.error = none := by
  rw [passUnder_of_idle d hidle]
  exact ⟨rfl, rfl, rfl, rfl, rfl⟩

/-- Unless a derive function failed, a pass leaves what its sweep leaves. -/
theorem passUnder_sweep (hidle : e.idle ctx req = false)
    (hok : stopDegrade (e.sweep late ctx req).stop ≠ some .deriveFailed) :
    (e.passUnder late ctx req d).context.draft = (e.sweep late ctx req).run.draft := by
  rw [passUnder_of_due d hidle]
  dsimp only [close]
  split
  · rename_i hs
    rw [hs] at hok
    exact absurd rfl hok
  · rfl

theorem passUnder_changed (hidle : e.idle ctx req = false)
    (hok : stopDegrade (e.sweep late ctx req).stop ≠ some .deriveFailed) :
    (e.passUnder late ctx req d).outcome.changed = e.pathsOf (e.sweep late ctx req).run.changed := by
  rw [passUnder_of_due d hidle]
  dsimp only [close]
  split
  · rename_i hs
    rw [hs] at hok
    exact absurd rfl hok
  · rfl

theorem passUnder_carried (hidle : e.idle ctx req = false) :
    (e.passUnder late ctx req d).outcome.carried = e.leftBehind (e.sweep late ctx req) := by
  rw [passUnder_of_due d hidle]
  rfl

theorem passUnder_degrade (hidle : e.idle ctx req = false) :
    (e.passUnder late ctx req d).outcome.summary.degrade = stopDegrade (e.sweep late ctx req).stop := by
  rw [passUnder_of_due d hidle]
  rfl

theorem passUnder_executed (hidle : e.idle ctx req = false) :
    (e.passUnder late ctx req d).outcome.summary.executed = (e.choice ctx req).executed := by
  rw [passUnder_of_due d hidle]
  rfl

/-- A pass that ran in full was not idle, and chose to. -/
theorem passUnder_full (hfull : (e.passUnder late ctx req d).outcome.summary.executed = .full) :
    e.idle ctx req = false ∧ (e.choice ctx req).executed = .full := by
  cases hidle : e.idle ctx req with
  | true =>
    rw [passUnder_of_idle d hidle] at hfull
    cases hfull
  | false => exact ⟨rfl, (passUnder_executed hidle).symm.trans hfull⟩

/-- A pass in which a derive function failed leaves its context, wrote nothing and carries
nothing. -/
theorem passUnder_failed (hfail : (e.passUnder late ctx req d).outcome.summary.degrade = some .deriveFailed) :
    (e.passUnder late ctx req d).context = ctx ∧ (e.passUnder late ctx req d).outcome.changed = [] ∧
      (e.passUnder late ctx req d).outcome.carried = none := by
  cases hidle : e.idle ctx req with
  | true =>
    obtain ⟨hctx, hcarried, hchanged, -⟩ := @passUnder_idle e late ctx req d hidle
    exact ⟨hctx, hchanged, hcarried⟩
  | false =>
    rw [passUnder_degrade hidle] at hfail
    rw [passUnder_of_due d hidle]
    unfold close leftBehind
    dsimp only
    cases hs : (e.sweep late ctx req).stop with
    | none =>
      rw [hs] at hfail
      cases hfail
    | some stop =>
      cases stop with
      | failed i fault => exact ⟨rfl, rfl, rfl⟩
      | cap reason rest =>
        rw [hs] at hfail
        rcases Pass.rounds_reason hs with rfl | rfl <;> cases hfail

/-- A pass adds its patches, if it adds any, after those that are there. -/
theorem passUnder_patches (late : Nat → Bool) (e : Executor) (ctx : Context) (req : Request) (d : Diagnostics) :
    ctx.patches <+: (e.passUnder late ctx req d).context.patches := by
  rw [passUnder_eq]
  split
  · exact List.prefix_refl _
  · dsimp only [close]
    split
    · exact List.prefix_refl _
    · exact List.prefix_append _ _

theorem leftBehind_of_none {s : Pass.Swept} (h : s.stop = none) : e.leftBehind s = none := by
  unfold leftBehind
  rw [h]

theorem mem_pathsOf {ids : List PathId} {k : PathId} {p : Path} (hk : k ∈ ids) (hp : e.graph.table.path? k = some p) :
    p ∈ e.pathsOf ids := List.mem_filterMap.2 ⟨k, hk, hp⟩

/-- Work with a path in it is handed back. -/
theorem leftBehind_of_mem {s : Pass.Swept} {reason : Degrade} {rest : List StepId} (hs : s.stop = some (.cap reason rest))
    {p : Path} (hp : p ∈ e.pathsOf s.run.again ∨
      p ∈ e.pathsOf ((rest.filter fun i => s.unconditional || s.run.marks.touchesStep e.wiring i).map e.wiring.out)) :
    e.leftBehind s = some ⟨e.pathsOf s.run.again,
      e.pathsOf ((rest.filter fun i => s.unconditional || s.run.marks.touchesStep e.wiring i).map e.wiring.out)⟩ := by
  unfold leftBehind
  rw [hs]
  refine if_neg fun hempty => ?_
  obtain ⟨hroots, houts⟩ := Bool.and_eq_true_iff.1 hempty
  rcases hp with hp | hp
  · exact List.ne_nil_of_mem hp (List.isEmpty_iff.1 hroots)
  · exact List.ne_nil_of_mem hp (List.isEmpty_iff.1 houts)

/-- A sweep that is stopped at a cap hands back each step that was still to come and due. -/
theorem owes_of_rest (h : e.Sound) {s : Pass.Swept} {reason : Degrade} {rest : List StepId} {scope : Scope}
    (hs : s.stop = some (.cap reason rest)) {j : StepId} (hj : j ∈ e.wiring.order scope) (hjr : j ∈ rest)
    (hu : s.unconditional = true ∨ s.run.marks.touchesStep e.wiring j = true) :
    ∃ work, e.leftBehind s = some work ∧ e.graph.Owes work j := by
  obtain ⟨st, p, hst, hp⟩ := h.wired.exists_out hj
  have hdue : j ∈ rest.filter fun i => s.unconditional || s.run.marks.touchesStep e.wiring i :=
    List.mem_filter.2 ⟨hjr, Bool.or_eq_true_iff.2 hu⟩
  have hin := mem_pathsOf (e := e) (List.mem_map_of_mem (f := e.wiring.out) hdue) (h.wired.out_eq hst ▸ hp)
  exact ⟨_, leftBehind_of_mem hs (.inr hin), .inr ⟨st, p, hst, hp, hin⟩⟩

/-- What a stopped sweep hands back owes each step that it leaves unsettled. -/
theorem owes_of_leftOver (h : e.Sound) {f : Pass.Frame} (hg : f.graph = e.graph) (hw : f.wiring = e.wiring)
    {X : StepId → Prop} {s : Pass.Swept} (ha : Pass.LeftOver f X s) (hok : stopDegrade s.stop ≠ some .deriveFailed)
    {j : StepId} (hj : j ∈ e.wiring.order f.scope) (hn : ¬ e.graph.Settled s.run.draft j) :
    X j ∨ ∃ work, e.leftBehind s = some work ∧ e.graph.Owes work j := by
  unfold Pass.LeftOver at ha
  rw [hg, hw] at ha
  cases hs : s.stop with
  | none =>
    rw [hs] at ha
    exact .inl (ha j hj hn)
  | some stop =>
    cases stop with
    | failed i fault =>
      rw [hs] at hok
      exact absurd rfl hok
    | cap reason rest =>
      rw [hs] at ha
      refine (ha j hj hn).imp id fun hwork => ?_
      rcases hwork with ⟨k, hk, -, p, hp, hmv⟩ | ⟨hjr, hu⟩
      · have hin := mem_pathsOf hk hp
        exact ⟨_, leftBehind_of_mem hs (.inl hin), .inl ⟨p, hin, hmv⟩⟩
      · exact owes_of_rest h hs hj hjr hu

/-- The sweep of a pass that is not idle leaves what it takes up accounted for. -/
theorem sweep_accounted (h : e.Sound) (hl : e.graph.Local) (hr : e.graph.Reflexive) (hself : e.graph.SelfFree)
    {X : StepId → Prop} (hidle : e.idle ctx req = false)
    (hdue : ∀ j ∈ e.wiring.order req.scope, ¬ e.graph.Settled ctx.draft j →
      X j ∨ e.graph.Due ctx.dirty req.carried j ∨ (e.choice ctx req).executed = .full)
    (hfit : State.fitsAll ctx.draft (e.writes late ctx req)) :
    Pass.Accounted (frame late e req) X ctx.draft (e.sweep late ctx req) := by
  obtain ⟨P, hsteps, hP, ha⟩ := exists_start_full h late hdue
  have hsweep : e.sweep late ctx req = Pass.rounds (frame late e req) ((e.choice ctx req).executed = .full)
      ((e.wiring.order req.scope).filter P) (e.start ctx req) 1 := by
    rw [← hsteps]
    rfl
  simp only [writes, hidle, Bool.false_eq_true, if_false] at hfit
  rw [hsweep] at hfit ⊢
  exact Pass.rounds_accounted (f := frame late e req) h.wired hl hr hself hfit hP ha rfl (fun _ hs hn => absurd hs hn)
    (List.prefix_refl _)

/-- A pass that does not fail leaves each step of its scope settled, excused, or owed by
what it carries. In full it takes up those that were not due too. -/
theorem pass_accounts_full (h : e.Sound) (hl : e.graph.Local) (hr : e.graph.Reflexive) (hself : e.graph.SelfFree)
    {X : StepId → Prop}
    (hdue : ∀ j ∈ e.wiring.order req.scope, ¬ e.graph.Settled ctx.draft j →
      X j ∨ e.graph.Due ctx.dirty req.carried j ∨ (e.passUnder late ctx req d).outcome.summary.executed = .full)
    (hfit : State.fitsAll ctx.draft (e.writes late ctx req))
    (hok : (e.passUnder late ctx req d).outcome.summary.degrade ≠ some .deriveFailed) {j : StepId}
    (hj : j ∈ e.wiring.order req.scope) (hn : ¬ e.graph.Settled (e.passUnder late ctx req d).context.draft j) :
    X j ∨ ∃ work, (e.passUnder late ctx req d).outcome.carried = some work ∧ e.graph.Owes work j := by
  cases hidle : e.idle ctx req with
  | true =>
    obtain ⟨hctx, -⟩ := @passUnder_idle e late ctx req d hidle
    rw [hctx] at hn
    refine .inl ((hdue j hj hn).resolve_right ?_)
    rintro (hd | hfull)
    · exact not_due_of_idle h hidle hj hd
    · rw [(passUnder_full hfull).1] at hidle
      cases hidle
  | false =>
    rw [passUnder_executed hidle] at hdue
    rw [passUnder_degrade hidle] at hok
    rw [passUnder_sweep hidle hok] at hn
    rw [passUnder_carried hidle]
    exact owes_of_leftOver h rfl rfl (sweep_accounted h hl hr hself hidle hdue hfit).leftOver hok hj hn

theorem pass_accounts (h : e.Sound) (hl : e.graph.Local) (hr : e.graph.Reflexive) (hself : e.graph.SelfFree)
    {X : StepId → Prop}
    (hdue : ∀ j ∈ e.wiring.order req.scope, ¬ e.graph.Settled ctx.draft j → X j ∨ e.graph.Due ctx.dirty req.carried j)
    (hfit : State.fitsAll ctx.draft (e.writes late ctx req))
    (hok : (e.passUnder late ctx req d).outcome.summary.degrade ≠ some .deriveFailed) {j : StepId}
    (hj : j ∈ e.wiring.order req.scope) (hn : ¬ e.graph.Settled (e.passUnder late ctx req d).context.draft j) :
    X j ∨ ∃ work, (e.passUnder late ctx req d).outcome.carried = some work ∧ e.graph.Owes work j :=
  pass_accounts_full h hl hr hself (fun j hj hn => (hdue j hj hn).imp id .inl) hfit hok hj hn

/-- A pass unsettles only what a field that it wrote may move. -/
theorem pass_moved (h : e.Sound) (hl : e.graph.Local) (hr : e.graph.Reflexive) (hself : e.graph.SelfFree)
    (hfit : State.fitsAll ctx.draft (e.writes late ctx req))
    (hok : (e.passUnder late ctx req d).outcome.summary.degrade ≠ some .deriveFailed) {j : StepId}
    (hs : e.graph.Settled ctx.draft j) (hn : ¬ e.graph.Settled (e.passUnder late ctx req d).context.draft j) :
    ∃ p ∈ (e.passUnder late ctx req d).outcome.changed, e.graph.Moves p j := by
  cases hidle : e.idle ctx req with
  | true =>
    obtain ⟨hctx, -⟩ := @passUnder_idle e late ctx req d hidle
    rw [hctx] at hn
    exact absurd hs hn
  | false =>
    rw [passUnder_degrade hidle] at hok
    rw [passUnder_sweep hidle hok] at hn
    rw [passUnder_changed hidle hok]
    obtain ⟨k, hk, p, hp, hm⟩ := (sweep_accounted (X := fun _ => True) h hl hr hself hidle (fun _ _ _ => .inl trivial)
      hfit).moved j hs hn
    exact ⟨p, mem_pathsOf hk hp, hm⟩

/-- The draft after a pass is what its writes make of the one before. -/
theorem pass_draft (h : e.graph.WellFormed)
    (hok : (e.passUnder late ctx req d).outcome.summary.degrade ≠ some .deriveFailed) :
    (e.passUnder late ctx req d).context.draft = State.writeAll ctx.draft (e.writes late ctx req) := by
  cases hidle : e.idle ctx req with
  | true =>
    obtain ⟨hctx, -⟩ := @passUnder_idle e late ctx req d hidle
    rw [hctx, writes, hidle]
    rfl
  | false =>
    rw [passUnder_degrade hidle] at hok
    rw [passUnder_sweep hidle hok, writes, hidle]
    have hstart : Pass.Replays e.graph ctx.draft (e.start ctx req).trail := rfl
    exact Pass.rounds_replays (f := frame late e req) h _ _ hstart 1

/-- A pass appends the patches of its writes. -/
theorem pass_patches (hok : (e.passUnder late ctx req d).outcome.summary.degrade ≠ some .deriveFailed) :
    ∃ ps, (e.passUnder late ctx req d).context.patches = ctx.patches ++ ps ∧
      e.graph.writesOf ps = e.writes late ctx req := by
  cases hidle : e.idle ctx req with
  | true =>
    obtain ⟨hctx, -⟩ := @passUnder_idle e late ctx req d hidle
    rw [hctx, writes, hidle]
    exact ⟨[], (List.append_nil _).symm, rfl⟩
  | false =>
    rw [passUnder_degrade hidle] at hok
    rw [writes, hidle]
    refine ⟨(e.sweep late ctx req).run.patches, ?_, rfl⟩
    rw [passUnder_of_due d hidle]
    dsimp only [close]
    split
    · rename_i hs
      rw [hs] at hok
      exact absurd rfl hok
    · rfl

/-- A pass whose log is part of another that meets no array meets none. -/
theorem pass_fits {v : Value} {p₀ qs : List Patch}
    (hlog : ∃ ps, ctx.patches = p₀ ++ ps ∧ ctx.draft = State.writeAll v (e.graph.writesOf ps))
    (hfit : State.fitsAll v (e.graph.writesOf qs))
    (hok : (e.passUnder late ctx req d).outcome.summary.degrade ≠ some .deriveFailed)
    (hps : (e.passUnder late ctx req d).context.patches <+: p₀ ++ qs) :
    State.fitsAll ctx.draft (e.writes late ctx req) := by
  obtain ⟨ps, hpatches, hdraft⟩ := hlog
  obtain ⟨more, hmore, hwrites⟩ := pass_patches hok
  rw [hmore, hpatches, List.append_assoc, List.prefix_append_right_inj] at hps
  obtain ⟨rest, rfl⟩ := hps
  simp only [Graph.writesOf_append, State.fitsAll_append] at hfit
  rw [← hwrites, hdraft]
  exact hfit.1.2

/-- After a pass the draft is what the whole log makes of the state it began with. -/
theorem pass_logged (h : e.graph.WellFormed) {v : Value} {p₀ : List Patch}
    (hlog : ∃ ps, ctx.patches = p₀ ++ ps ∧ ctx.draft = State.writeAll v (e.graph.writesOf ps)) :
    ∃ ps, (e.passUnder late ctx req d).context.patches = p₀ ++ ps ∧
      (e.passUnder late ctx req d).context.draft = State.writeAll v (e.graph.writesOf ps) := by
  by_cases hok : (e.passUnder late ctx req d).outcome.summary.degrade = some .deriveFailed
  · rw [(passUnder_failed hok).1]
    exact hlog
  · obtain ⟨ps, hpatches, hdraft⟩ := hlog
    obtain ⟨more, hmore, hwrites⟩ := pass_patches hok
    refine ⟨ps ++ more, ?_, ?_⟩
    · rw [hmore, hpatches, List.append_assoc]
    · rw [pass_draft h hok, ← hwrites, hdraft, Graph.writesOf_append, State.writeAll_append]

/-- Derive functions that never fail make no pass fail. -/
theorem pass_total (ht : e.graph.Total) (late : Nat → Bool) (ctx : Context) (req : Request) (d : Diagnostics) :
    (e.passUnder late ctx req d).outcome.summary.degrade ≠ some .deriveFailed := by
  cases hidle : e.idle ctx req with
  | true =>
    rw [(passUnder_idle hidle).2.2.2.1]
    nofun
  | false =>
    rw [passUnder_degrade hidle]
    cases hs : (e.sweep late ctx req).stop with
    | none => nofun
    | some stop =>
      cases stop with
      | failed i fault => exact absurd hs (Pass.rounds_total (f := frame late e req) ht _ _ _ 1 i fault)
      | cap reason rest =>
        rcases Pass.rounds_reason hs with rfl | rfl
        · nofun
        · nofun

theorem carried_of_stable (hs : (e.passUnder late ctx req d).outcome.summary.stable = true) :
    (e.passUnder late ctx req d).outcome.carried = none := by
  cases hidle : e.idle ctx req with
  | true => exact (passUnder_idle hidle).2.1
  | false =>
    rw [passUnder_carried hidle]
    rw [Summary.stable, passUnder_degrade hidle] at hs
    refine leftBehind_of_none ?_
    cases hstop : (e.sweep late ctx req).stop with
    | none => rfl
    | some stop =>
      rw [hstop] at hs
      cases stop <;> cases hs

/-- A pass that returns without a derive failure owes, in what it carries, every step of
its scope that it leaves unsettled, when each step unsettled before it was due. A stable
pass carries nothing and leaves every step settled. -/
theorem pass_forgets_no_step {decl : Declaration} {c : Compiled} (hc : c.Of decl) (hl : c.graph.Local)
    (hr : c.graph.Reflexive) (hself : c.graph.SelfFree) {e : Executor} (he : Reached c e) (late : Nat → Bool)
    (ctx : Context) (req : Request) (d : Diagnostics)
    (hdue : ∀ j ∈ c.wiring.order req.scope, ¬ c.graph.Settled ctx.draft j → c.graph.Due ctx.dirty req.carried j)
    (hfit : State.fitsAll ctx.draft (e.writes late ctx req))
    (hok : (e.passUnder late ctx req d).outcome.summary.degrade ≠ some .deriveFailed) :
    (∀ j ∈ c.wiring.order req.scope, ¬ c.graph.Settled (e.passUnder late ctx req d).context.draft j →
      ∃ work, (e.passUnder late ctx req d).outcome.carried = some work ∧ c.graph.Owes work j) ∧
    ((e.passUnder late ctx req d).outcome.summary.stable = true →
      (e.passUnder late ctx req d).outcome.carried = none ∧
        ∀ j ∈ c.wiring.order req.scope, c.graph.Settled (e.passUnder late ctx req d).context.draft j) := by
  have hs := he.sound hc
  obtain ⟨hg, hw⟩ := he.same
  rw [← hg] at hl hr hself hdue ⊢
  rw [← hw] at hdue ⊢
  have hall : ∀ j ∈ e.wiring.order req.scope, ¬ e.graph.Settled (e.passUnder late ctx req d).context.draft j →
      ∃ work, (e.passUnder late ctx req d).outcome.carried = some work ∧ e.graph.Owes work j := fun j hj hn =>
    (pass_accounts (X := fun _ => False) hs hl hr hself (fun j hj hn => .inr (hdue j hj hn)) hfit hok hj
      hn).resolve_left id
  refine ⟨hall, fun hst => ?_⟩
  have hnone := carried_of_stable hst
  refine ⟨hnone, fun j hj => Classical.byContradiction fun hn => ?_⟩
  obtain ⟨work, hwork, -⟩ := hall j hj hn
  rw [hnone] at hwork
  cases hwork

end Executor

/-- A pass over the relay that is stopped at its cap, after `a`. -/
def Relay.capped : Executor.Passed :=
  Relay.executor.passUnder (fun _ => false) ⟨Relay.state 2 1 1, [], .ofPaths [Relay.x], 2⟩
    ⟨.all, Relay.config .full 1, none⟩ (.ofReporting .builtin false)

theorem Relay.pass_forgets_no_step_capped :
    ¬ Relay.graph.Settled Relay.capped.context.draft 1 ∧
      ∃ work, Relay.capped.outcome.carried = some work ∧ Relay.graph.Owes work 1 := by
  have hn : ¬ Relay.graph.Settled Relay.capped.context.draft 1 := by
    have hd : Relay.capped.context.draft = Relay.state 2 2 1 := by cbv
    rw [hd]
    intro h
    cases h
  refine ⟨hn, (Executor.pass_forgets_no_step Relay.compiled_of Relay.local_ Relay.reflexive Relay.selfFree
    (.ofCompiled _) _ _ _ _ ?_ ?_ ?_).1 1 (by decide) hn⟩
  · exact fun j hj hn => Relay.due_of_x hj hn
  · cbv
  · cbv
    intro h
    cases h

end Settle
