/-
  Settle.Proofs.Agreement — the incremental pass agrees with the plain one (see
  `Settle.Executor`).

  The first round of a pass that is due for all that is unsettled writes what running
  every step of the scope would write (`round_walk`): a step it passes over is settled at
  that moment. From then on a pass goes by the fields kept for another round alone, so two
  passes that no cap stops run in step to their end (`rounds_twin`). Neither the mode nor
  the cache, the cap or the clock has a part in what they come to (`passes_agree`).
-/

import Settle.Proofs.Executor

namespace Settle

namespace Pass

variable {f : Frame} {u : Bool} {P : StepId → Bool} {v : Value}

/-! ## The plain walk -/

/-- Run a step, whatever is marked. -/
def Trail.step (f : Frame) (k : Trail) (i : StepId) : Trail × Option Fault :=
  match f.graph.effect i k.draft, f.graph.step? i, (f.graph.step? i).bind fun s => f.graph.table.path? s.out with
  | .error fault, _, _ => (k, some fault)
  | .ok (some (prev, next)), some s, some out => (k.write f s out prev next, none)
  | _, _, _ => (k, none)

/-- Run every step in turn, until one fails. -/
def walk (f : Frame) : List StepId → Trail → Trail × Option (StepId × Fault)
  | [], k => (k, none)
  | i :: rest, k =>
    match k.step f i with
    | (k, some fault) => (k, some (i, fault))
    | (k, none) => walk f rest k

theorem walk_under (f : Frame) (cap : Nat) (late : Nat → Bool) (L : List StepId) (k : Trail) :
    walk { f with cap := cap, late := late } L k = walk f L k := by
  induction L generalizing k with
  | nil => rfl
  | cons i L ih =>
    have hstep : k.step { f with cap := cap, late := late } i = k.step f i := rfl
    simp only [walk, hstep, ih]

theorem Trail.step_settled {k : Trail} {i : StepId} (h : f.graph.Settled k.draft i) : k.step f i = (k, none) := by
  unfold Trail.step
  rw [h]

theorem Stepped.trail {i : StepId} {r : Run} {out : Run × Option Fault} (h : Stepped f i r out) :
    r.trail.step f i = (out.1.trail, out.2) := by
  cases h with
  | failed he ht _ =>
    unfold Trail.step
    rw [show r.trail.draft = r.draft from rfl, he, ht]
  | settled hs ht _ _ => rw [Trail.step_settled hs, ht]
  | wrote hs hout he ht _ _ =>
    unfold Trail.step
    rw [show r.trail.draft = r.draft from rfl, he, hs, Option.bind_some, hout, ht]

theorem Stepped.clear {i : StepId} {r r' : Run} (h : Stepped f i r (r', none)) : r'.marks.clear = r.marks.clear := by
  cases h with
  | settled _ _ hm _ => rw [hm]
  | wrote _ _ _ _ hm _ => rw [hm, Marks.clear_mark]

/-- What a round keeps that began with `r₀` and has the steps of `L` still to come:
walking them would end as walking all of them from `r₀`. -/
structure Walked (f : Frame) (u : Bool) (P : StepId → Bool) (v : Value) (r₀ : Run) (L : List StepId) (r : Run) :
    Prop where
  ahead : Ahead f u P (fun _ => False) L r
  replays : Replays f.graph v r.trail
  mem_order : ∀ j ∈ L, j ∈ f.wiring.order f.scope
  clear : r.marks.clear = r₀.marks.clear
  walk : walk f (f.wiring.order f.scope) r₀.trail = walk f L r.trail

/-- The first round of a sweep writes what running every step would write, as far as it
comes. -/
theorem round_walk (h : Wired f.graph f.wiring) (hl : f.graph.Local) (hP : Closes f P) {ps : List Patch}
    (hfit : State.fitsAll v (f.graph.writesOf ps)) {r : Run}
    (ha : Ahead f u P (fun _ => False) (f.wiring.order f.scope) r) (hrep : Replays f.graph v r.trail)
    (hps : (round f u ((f.wiring.order f.scope).filter P) r).1.patches <+: ps) :
    Rounded f P (Walked f u P v r) (f.wiring.order f.scope) (round f u ((f.wiring.order f.scope).filter P) r) := by
  refine round_rule h ?_ ?_ (fun _ hj => hj) hps ⟨ha, hrep, fun _ hj => hj, rfl, rfl⟩
  · intro i L r' hk hs
    have hset : f.graph.Settled r'.draft i := Classical.byContradiction (hk.ahead.settled_of_skip hs)
    refine ⟨hk.ahead.tail, hk.replays, fun j hj => hk.mem_order j (List.mem_cons_of_mem i hj), hk.clear,
      hk.walk.trans ?_⟩
    rw [Pass.walk, Trail.step_settled (f := f) (k := r'.trail) hset]
  · intro i L r' r'' hk _ hi hst hps'
    have hL : ∀ j ∈ L, j ∈ f.wiring.order f.scope := fun j hj => hk.mem_order j (List.mem_cons_of_mem i hj)
    refine ⟨hk.ahead.run h hl hP hfit hL hk.replays hi hst hps', hst.replays h.graph hk.replays, hL,
      hst.clear.trans hk.clear, hk.walk.trans ?_⟩
    rw [Pass.walk, hst.trail]

/-! ## Two runs in step -/

/-- Two runs that differ in what they counted and told. -/
structure Twin (r₁ r₂ : Run) : Prop where
  trail : r₁.trail = r₂.trail
  marks : r₁.marks = r₂.marks

/-- No cap stopped it. -/
def Uncapped (s : Option Stop) : Prop := ∀ reason rest, s ≠ some (.cap reason rest)

theorem step_twin {r₁ r₂ : Run} (h : Twin r₁ r₂) (i : StepId) :
    Twin (r₁.step f i).1 (r₂.step f i).1 ∧ (r₁.step f i).2 = (r₂.step f i).2 := by
  obtain ⟨d₁, p₁, m₁, c₁, n₁, a₁, rs₁, l₁⟩ := r₁
  obtain ⟨d₂, p₂, m₂, c₂, n₂, a₂, rs₂, l₂⟩ := r₂
  obtain ⟨ht, hm⟩ := h
  simp only [Run.trail, Trail.mk.injEq] at ht hm
  obtain ⟨rfl, rfl, rfl, rfl⟩ := ht
  subst hm
  unfold Run.step
  cases f.graph.step? i with
  | none => exact ⟨⟨rfl, rfl⟩, rfl⟩
  | some s =>
    cases f.graph.body? i with
    | none => exact ⟨⟨rfl, rfl⟩, rfl⟩
    | some body =>
      dsimp only
      cases evaluate f.graph s body d₁ f.traced with
      | error fault => exact ⟨⟨rfl, rfl⟩, rfl⟩
      | ok e =>
        dsimp only
        cases e.change with
        | none =>
          refine ⟨⟨?_, ?_⟩, rfl⟩
          all_goals dsimp only; split <;> rfl
        | some change =>
          refine ⟨⟨?_, ?_⟩, rfl⟩
          all_goals dsimp only; split <;> rfl

variable {cap : Nat} {late : Nat → Bool}

/-- Runs in step stay in step through a round, as long as no cap stops either. -/
theorem round_twin {l : List StepId} {r₁ r₂ : Run} (h : Twin r₁ r₂) (h₁ : Uncapped (round f u l r₁).2)
    (h₂ : Uncapped (round { f with cap := cap, late := late } u l r₂).2) :
    Twin (round f u l r₁).1 (round { f with cap := cap, late := late } u l r₂).1 ∧
      (round f u l r₁).2 = (round { f with cap := cap, late := late } u l r₂).2 := by
  induction l generalizing r₁ r₂ with
  | nil => exact ⟨h, rfl⟩
  | cons i l ih =>
    have hstep := step_twin (f := f) h i
    have hsame : r₂.step { f with cap := cap, late := late } i = r₂.step f i := rfl
    rw [round] at h₁ h₂ ⊢
    rw [round, hsame]
    rw [hsame] at h₂
    rw [h.marks] at h₁ ⊢
    split
    · rename_i hs
      rw [if_pos hs] at h₁ h₂
      exact ih h h₁ h₂
    · rename_i hs
      rw [if_neg hs] at h₁ h₂
      split at h₁
      · exact absurd rfl (h₁ _ _)
      split at h₁
      · exact absurd rfl (h₁ _ _)
      split at h₂
      · exact absurd rfl (h₂ _ _)
      split at h₂
      · exact absurd rfl (h₂ _ _)
      rename_i hc₁ hb₁ hc₂ hb₂
      rw [if_neg hc₁, if_neg hb₁, if_neg hc₂, if_neg hb₂]
      revert hstep h₁ h₂
      generalize r₁.step f i = out₁
      generalize r₂.step f i = out₂
      obtain ⟨r₁', o₁⟩ := out₁
      obtain ⟨r₂', o₂⟩ := out₂
      intro heq h₁ h₂
      obtain ⟨ht, rfl⟩ := heq
      cases o₁ with
      | some fault => exact ⟨ht, rfl⟩
      | none => exact ih ht h₁ h₂

/-! ## Round after round -/

/-- What two rounds have in common when neither is stopped at a cap. -/
structure Agree (o₁ o₂ : Run × Option Stop) : Prop where
  trail : o₁.1.trail = o₂.1.trail
  stop : o₁.2 = o₂.2
  clear : o₁.2 = none → o₁.1.marks.clear = o₂.1.marks.clear

theorem Agree.renewed {r₁ r₂ : Run} (h : Agree (r₁, none) (r₂, none)) : Twin (r₁.renewed f) (r₂.renewed f) := by
  refine ⟨h.trail, ?_⟩
  have ha : r₁.again = r₂.again := congrArg Trail.again h.trail
  have hc : r₁.marks.clear = r₂.marks.clear := h.clear rfl
  simp only [Run.renewed, ha, hc]

theorem Twin.emptied {r₁ r₂ : Run} (h : Twin r₁ r₂) : Twin { r₁ with again := [] } { r₂ with again := [] } :=
  ⟨congrArg (fun k : Trail => { k with again := [] }) h.trail, h.marks⟩

/-- Sweeps whose first rounds agree agree to their end, as long as no cap stops either. -/
theorem rounds_agree (h : Wired f.graph f.wiring) {u₁ u₂ : Bool} {l₁ l₂ : List StepId} {r₁ r₂ : Run} {n₁ n₂ : Nat}
    (hl₁ : ∀ j ∈ l₁, j ∈ f.wiring.order f.scope) (hl₂ : ∀ j ∈ l₂, j ∈ f.wiring.order f.scope)
    (hround : Uncapped (round f u₁ l₁ { r₁ with again := [] }).2 →
      Uncapped (round { f with cap := cap, late := late } u₂ l₂ { r₂ with again := [] }).2 →
      Agree (round f u₁ l₁ { r₁ with again := [] })
        (round { f with cap := cap, late := late } u₂ l₂ { r₂ with again := [] }))
    (h₁ : Uncapped (rounds f u₁ l₁ r₁ n₁).stop)
    (h₂ : Uncapped (rounds { f with cap := cap, late := late } u₂ l₂ r₂ n₂).stop) :
    (rounds f u₁ l₁ r₁ n₁).run.trail = (rounds { f with cap := cap, late := late } u₂ l₂ r₂ n₂).run.trail ∧
      (rounds f u₁ l₁ r₁ n₁).stop = (rounds { f with cap := cap, late := late } u₂ l₂ r₂ n₂).stop := by
  induction hN : f.cap - r₁.executed using Nat.strongRecOn generalizing u₁ u₂ l₁ l₂ r₁ r₂ n₁ n₂ with
  | _ N ih =>
  have hgrew := round_grew (u := u₁) h hl₁ r₁
  have hlt := round_again_lt (u := u₁) h hl₁ { r₁ with again := [] } nofun
  rw [rounds_eq h hl₁] at h₁ ⊢
  rw [rounds_eq (f := { f with cap := cap, late := late }) h hl₂] at h₂ ⊢
  generalize round f u₁ l₁ { r₁ with again := [] } = o₁ at hround hgrew hlt h₁ ⊢
  generalize round { f with cap := cap, late := late } u₂ l₂ { r₂ with again := [] } = o₂ at hround h₂ ⊢
  obtain ⟨r₁', s₁⟩ := o₁
  obtain ⟨r₂', s₂⟩ := o₂
  dsimp only at *
  -- a round stopped at a cap would be the last one
  have hun : ∀ {s : Option Stop} {r : Run} {a b : Swept}, a.stop = s →
      Uncapped (if (s.isSome || r.again.isEmpty) = true then a else b).stop → Uncapped s := by
    intro s r a b ha hs reason rest he
    rw [he, Option.isSome_some, Bool.true_or, if_pos rfl, ha, he] at hs
    exact hs reason rest rfl
  obtain ⟨ht, rfl, hc⟩ := hround (hun rfl h₁) (hun rfl h₂)
  have ha : r₁'.again = r₂'.again := congrArg Trail.again ht
  have hnext : nextRound f r₁' = nextRound { f with cap := cap, late := late } r₂' := by
    simp only [nextRound, ha]
  rw [← ha, ← hnext] at h₂ ⊢
  split
  · exact ⟨ht, rfl⟩
  · rename_i hs
    rw [if_neg hs] at h₁ h₂
    have hnone : s₁ = none := by
      cases s₁ with
      | none => rfl
      | some s => exact absurd rfl hs
    subst hnone
    have htwin : Twin (r₁'.renewed f) (r₂'.renewed f) := Agree.renewed ⟨ht, rfl, hc⟩
    have hin : ∀ j ∈ nextRound f r₁', j ∈ f.wiring.order f.scope := fun j hj =>
      (((nextRound_isPlan h hlt).mem_iff j).1 hj).mem_order
    refine ih _ ?_ hin hin (fun hu₁ hu₂ => ?_) h₁ h₂ rfl
    · have hlt := hgrew hs
      simp only [Run.renewed]
      omega
    · obtain ⟨ht', hs'⟩ := round_twin htwin.emptied hu₁ hu₂
      exact ⟨ht'.trail, hs', fun _ => congrArg Marks.clear ht'.marks⟩

/-- First rounds that both are the same walk agree. -/
theorem Rounded.agree {u₁ u₂ : Bool} {P₁ P₂ : StepId → Bool} {v₁ v₂ : Value} {r₁ r₂ : Run} {L : List StepId}
    {o₁ o₂ : Run × Option Stop} (h₁ : Rounded f P₁ (Walked f u₁ P₁ v₁ r₁) L o₁)
    (h₂ : Rounded { f with cap := cap, late := late } P₂
      (Walked { f with cap := cap, late := late } u₂ P₂ v₂ r₂) L o₂)
    (ht : r₁.trail = r₂.trail) (hc : r₁.marks.clear = r₂.marks.clear) (hu₁ : Uncapped o₁.2) (hu₂ : Uncapped o₂.2) :
    Agree o₁ o₂ := by
  have hw : ∀ {L₁ L₂ r₁' r₂'}, Walked f u₁ P₁ v₁ r₁ L₁ r₁' →
      Walked { f with cap := cap, late := late } u₂ P₂ v₂ r₂ L₂ r₂' → walk f L₁ r₁'.trail = walk f L₂ r₂'.trail := by
    intro L₁ L₂ r₁' r₂' hk₁ hk₂
    have hk₂' := (walk_under f cap late _ _).symm.trans (hk₂.walk.trans (walk_under f cap late _ _))
    rw [← ht] at hk₂'
    exact hk₁.walk.symm.trans hk₂'
  cases h₁ with
  | capped => exact absurd rfl (hu₁ _ _)
  | ended hk₁ =>
    cases h₂ with
    | capped => exact absurd rfl (hu₂ _ _)
    | ended hk₂ =>
      exact ⟨congrArg Prod.fst (hw hk₁ hk₂), rfl, fun _ => hk₁.clear.trans (hc.trans hk₂.clear.symm)⟩
    | failed _ _ hk₂ hst₂ =>
      have he := congrArg Prod.snd (hw hk₁ hk₂)
      rw [walk, walk, show Trail.step f _ _ = _ from hst₂.trail] at he
      cases he
  | failed _ _ hk₁ hst₁ =>
    cases h₂ with
    | capped => exact absurd rfl (hu₂ _ _)
    | ended hk₂ =>
      have he := congrArg Prod.snd (hw hk₁ hk₂)
      rw [walk, walk, hst₁.trail] at he
      cases he
    | failed _ _ hk₂ hst₂ =>
      have he := hw hk₁ hk₂
      rw [walk, walk, hst₁.trail, show Trail.step f _ _ = _ from hst₂.trail] at he
      simp only [Prod.mk.injEq, Option.some.injEq] at he
      obtain ⟨he, rfl, rfl⟩ := he
      exact ⟨he, rfl, nofun⟩

end Pass

/-! ## Passes -/

/-- What a pass came to: the state and the patches after it, the fields written, in
order, and how it ended. -/
structure Result where
  draft : Value
  patches : List Patch
  changed : List Path
  stable : Bool
  degrade : Option Degrade
  error : Option String

namespace Executor

def Passed.result (p : Passed) : Result :=
  ⟨p.context.draft, p.context.patches, p.outcome.changed, p.outcome.summary.stable, p.outcome.summary.degrade,
    p.outcome.summary.error⟩

/-- The result of a sweep that wrote so much and stopped so. -/
def resultOf (g : Graph) (ctx : Context) (k : Pass.Trail) (stop : Option Pass.Stop) : Result :=
  let changed := k.changed.filterMap g.table.path?
  match stop with
  | some (.failed i fault) => ⟨ctx.draft, ctx.patches, [], false, some .deriveFailed, some s!"{g.label i}: {fault.message}"⟩
  | some (.cap reason _) => ⟨k.draft, ctx.patches ++ k.patches, changed, false, some reason, none⟩
  | none => ⟨k.draft, ctx.patches ++ k.patches, changed, true, none, none⟩

variable {e : Executor} {late : Nat → Bool} {ctx : Context} {req : Request} {d : Diagnostics}

/-- What the sweep of a pass wrote and how it stopped; nothing and not at all when the
pass is idle. -/
def swept (late : Nat → Bool) (e : Executor) (ctx : Context) (req : Request) : Pass.Trail × Option Pass.Stop :=
  if e.idle ctx req then (⟨ctx.draft, [], [], []⟩, none)
  else ((e.sweep late ctx req).run.trail, (e.sweep late ctx req).stop)

theorem swept_of_idle (hidle : e.idle ctx req = true) : e.swept late ctx req = (⟨ctx.draft, [], [], []⟩, none) := by
  rw [swept, hidle, if_pos rfl]

theorem passUnder_result (late : Nat → Bool) (e : Executor) (ctx : Context) (req : Request) (d : Diagnostics) :
    (e.passUnder late ctx req d).result = resultOf e.graph ctx (e.swept late ctx req).1 (e.swept late ctx req).2 := by
  rw [passUnder_eq]
  unfold swept
  cases hidle : e.idle ctx req with
  | true =>
    simp only [if_true, resultOf, Passed.result, List.append_nil]
    rfl
  | false =>
    simp only [Bool.false_eq_true, if_false]
    unfold close
    cases hs : (e.sweep late ctx req).stop with
    | none => rfl
    | some stop => cases stop <;> rfl

theorem uncapped_of_degrade (hc : (e.passUnder late ctx req d).outcome.summary.degrade ≠ some .cycleDetected)
    (hb : (e.passUnder late ctx req d).outcome.summary.degrade ≠ some .budgetSteps) :
    Pass.Uncapped (e.swept late ctx req).2 := by
  have hr : (e.passUnder late ctx req d).outcome.summary.degrade = _ :=
    congrArg Result.degrade (passUnder_result late e ctx req d)
  intro reason rest he
  rw [hr, he] at hc hb
  have hreason : reason = .cycleDetected ∨ reason = .budgetSteps := by
    unfold swept at he
    split at he
    · cases he
    · exact Pass.rounds_reason he
  rcases hreason with rfl | rfl
  · exact hc rfl
  · exact hb rfl

/-- What each pass is asked for: nothing unsettled is due for no root and named by no
work, its writes meet no array, and no cap stops it. -/
structure Fair (late : Nat → Bool) (e : Executor) (ctx : Context) (req : Request) : Prop where
  sound : e.Sound
  due : ∀ j ∈ e.wiring.order req.scope, ¬ e.graph.Settled ctx.draft j → e.graph.Due ctx.dirty req.carried j
  fits : State.fitsAll ctx.draft (e.writes late ctx req)
  uncapped : Pass.Uncapped (e.swept late ctx req).2

/-- Where an idle pass begins, walking the scope writes nothing. -/
theorem Fair.walk_of_idle (h : Fair late e ctx req) (hidle : e.idle ctx req = true) :
    Pass.walk (frame late e req) (e.wiring.order req.scope) ⟨ctx.draft, [], [], []⟩ = (⟨ctx.draft, [], [], []⟩, none) := by
  suffices hall : ∀ L : List StepId, (∀ j ∈ L, j ∈ e.wiring.order req.scope) →
      Pass.walk (frame late e req) L ⟨ctx.draft, [], [], []⟩ = (⟨ctx.draft, [], [], []⟩, none) from
    hall _ fun _ hj => hj
  intro L hL
  induction L with
  | nil => rfl
  | cons i L ih =>
    have hi : e.graph.Settled ctx.draft i := Classical.byContradiction fun hn =>
      not_due_of_idle h.sound hidle (hL i List.mem_cons_self) (h.due i (hL i List.mem_cons_self) hn)
    rw [Pass.walk, Pass.Trail.step_settled (f := frame late e req) (k := ⟨ctx.draft, [], [], []⟩) hi]
    exact ih fun j hj => hL j (List.mem_cons_of_mem i hj)

/-- The first round of a pass that is not idle, and how its sweep begins. -/
theorem Fair.first_round (h : Fair late e ctx req) (hl : e.graph.Local) (hidle : e.idle ctx req = false) :
    ∃ u P, e.sweep late ctx req
        = Pass.rounds (frame late e req) u ((e.wiring.order req.scope).filter P) (e.start ctx req) 1 ∧
      Pass.Rounded (frame late e req) P (Pass.Walked (frame late e req) u P ctx.draft (e.start ctx req))
        (e.wiring.order req.scope)
        (Pass.round (frame late e req) u ((e.wiring.order req.scope).filter P) (e.start ctx req)) := by
  obtain ⟨P, hsteps, hP, ha⟩ := exists_start h.sound late (X := fun _ => False) fun j hj hn => .inr (h.due j hj hn)
  have hsweep : e.sweep late ctx req = Pass.rounds (frame late e req) ((e.choice ctx req).executed = .full)
      ((e.wiring.order req.scope).filter P) (e.start ctx req) 1 := by
    rw [← hsteps]
    rfl
  have hfit := h.fits
  simp only [writes, hidle, Bool.false_eq_true, if_false, hsweep] at hfit
  exact ⟨_, P, hsweep, Pass.round_walk (f := frame late e req) h.sound.wired hl hP hfit ha rfl
    (Pass.round_prefix_rounds _ _ _ (e.start ctx req) 1)⟩

/-- What a pass that is not idle wrote, when walking its scope writes nothing. -/
theorem Fair.swept_of_walk (h : Fair late e ctx req) (hl : e.graph.Local) (hidle : e.idle ctx req = false)
    (hw : Pass.walk (frame late e req) (e.wiring.order req.scope) ⟨ctx.draft, [], [], []⟩
      = (⟨ctx.draft, [], [], []⟩, none)) :
    e.swept late ctx req = (⟨ctx.draft, [], [], []⟩, none) := by
  obtain ⟨u, P, hsweep, hround⟩ := h.first_round hl hidle
  have hun := h.uncapped
  simp only [swept, hidle, Bool.false_eq_true, if_false, hsweep] at hun ⊢
  have hin : ∀ j ∈ (e.wiring.order req.scope).filter P, j ∈ e.wiring.order req.scope := fun j hj =>
    (List.mem_filter.1 hj).1
  rw [Pass.rounds_eq (f := frame late e req) h.sound.wired hin] at hun ⊢
  have hempty : { e.start ctx req with again := [] } = e.start ctx req := rfl
  rw [hempty] at hun ⊢
  generalize Pass.round (frame late e req) u ((e.wiring.order req.scope).filter P) (e.start ctx req) = out at hround hun ⊢
  cases hround with
  | @ended r' hk =>
    have ht : r'.trail = ⟨ctx.draft, [], [], []⟩ := (congrArg Prod.fst (hk.walk.symm.trans hw))
    have ha : r'.again = [] := congrArg Pass.Trail.again ht
    simp only [Option.isSome_none, ha, List.isEmpty_nil, Bool.or_true, if_true, ht]
  | capped => exact absurd rfl (hun _ _)
  | failed _ _ hk hst =>
    have := congrArg Prod.snd (hk.walk.symm.trans hw)
    rw [Pass.walk, hst.trail] at this
    cases this

/-- Fair passes over one draft and one scope write the same and stop alike. -/
theorem Fair.swept_eq {e₁ e₂ : Executor} {late₁ late₂ : Nat → Bool} {ctx₁ ctx₂ : Context} {req₁ req₂ : Request}
    (h₁ : Fair late₁ e₁ ctx₁ req₁) (h₂ : Fair late₂ e₂ ctx₂ req₂) (hl : e₁.graph.Local)
    (hg : e₂.graph = e₁.graph) (hw : e₂.wiring = e₁.wiring) (hs : req₂.scope = req₁.scope)
    (hd : ctx₂.draft = ctx₁.draft) : e₁.swept late₁ ctx₁ req₁ = e₂.swept late₂ ctx₂ req₂ := by
  obtain ⟨key₁, g₁, w₁, cache₁⟩ := e₁
  obtain ⟨key₂, g, w, cache₂⟩ := e₂
  obtain ⟨v₁, patches₁, dirty₁, seq₁⟩ := ctx₁
  obtain ⟨v, patches₂, dirty₂, seq₂⟩ := ctx₂
  obtain ⟨scope₁, config₁, carried₁⟩ := req₁
  obtain ⟨scope, config₂, carried₂⟩ := req₂
  dsimp only at hg hw hs hd hl
  subst hg hw hs hd
  cases hi₁ : idle ⟨key₁, g, w, cache₁⟩ ⟨v, patches₁, dirty₁, seq₁⟩ ⟨scope, config₁, carried₁⟩ with
  | true =>
    have hwalk := h₁.walk_of_idle hi₁
    refine (swept_of_idle hi₁).trans ?_
    cases hi₂ : idle ⟨key₂, g, w, cache₂⟩ ⟨v, patches₂, dirty₂, seq₂⟩ ⟨scope, config₂, carried₂⟩ with
    | true => exact (swept_of_idle hi₂).symm
    | false =>
      refine (h₂.swept_of_walk hl hi₂ ?_).symm
      exact (Pass.walk_under (frame late₁ ⟨key₁, g, w, cache₁⟩ ⟨scope, config₁, carried₁⟩) _ late₂ _ _).trans hwalk
  | false =>
    cases hi₂ : idle ⟨key₂, g, w, cache₂⟩ ⟨v, patches₂, dirty₂, seq₂⟩ ⟨scope, config₂, carried₂⟩ with
    | true =>
      have hwalk := h₂.walk_of_idle hi₂
      refine (h₁.swept_of_walk hl hi₁ ?_).trans (swept_of_idle hi₂).symm
      exact (Pass.walk_under (frame late₂ ⟨key₂, g, w, cache₂⟩ ⟨scope, config₂, carried₂⟩) _ late₁ _ _).trans hwalk
    | false =>
      obtain ⟨u₁, P₁, hsweep₁, hround₁⟩ := h₁.first_round hl hi₁
      obtain ⟨u₂, P₂, hsweep₂, hround₂⟩ := h₂.first_round hl hi₂
      have hu₁ := h₁.uncapped
      have hu₂ := h₂.uncapped
      simp only [swept, hi₁, hi₂, Bool.false_eq_true, if_false, hsweep₁, hsweep₂] at hu₁ hu₂ ⊢
      have hin : ∀ {P : StepId → Bool} {j : StepId}, j ∈ (w.order scope).filter P → j ∈ w.order scope := fun hj =>
        (List.mem_filter.1 hj).1
      have hclear : (start ⟨key₁, g, w, cache₁⟩ ⟨v, patches₁, dirty₁, seq₁⟩ ⟨scope, config₁, carried₁⟩).marks.clear
          = (start ⟨key₂, g, w, cache₂⟩ ⟨v, patches₂, dirty₂, seq₂⟩ ⟨scope, config₂, carried₂⟩).marks.clear :=
        (Marks.clear_foldl_mark _ _ _).trans (Marks.clear_foldl_mark _ _ _).symm
      have hagree := hround₁.agree (f := frame late₁ ⟨key₁, g, w, cache₁⟩ ⟨scope, config₁, carried₁⟩) hround₂ rfl hclear
      obtain ⟨ht, hstop⟩ := Pass.rounds_agree (f := frame late₁ ⟨key₁, g, w, cache₁⟩ ⟨scope, config₁, carried₁⟩)
        h₁.sound.wired (fun _ => hin) (fun _ => hin) hagree hu₁ hu₂
      exact Prod.ext ht hstop

/-- Neither the step cap nor the time budget stopped the pass. -/
def Passed.Uncapped (p : Passed) : Prop :=
  p.outcome.summary.degrade ≠ some .cycleDetected ∧ p.outcome.summary.degrade ≠ some .budgetSteps

/-- Where every step of a scope was settled and the dirty set covers what has changed
since, two passes over the scope come to the same, whatever their modes, caches, caps and
clocks, unless a cap stops one of them. -/
theorem passes_agree {decl : Declaration} {c : Compiled} (hc : c.Of decl) (hl : c.graph.Local) {e₁ e₂ : Executor}
    (he₁ : Reached c e₁) (he₂ : Reached c e₂) {scope : Scope} {old : Value}
    (hold : ∀ j ∈ c.wiring.order scope, c.graph.Settled old j) (ctx : Context) (txnSeq : Nat)
    (hcover : c.graph.Covers (c.wiring.order scope) ctx.dirty old ctx.draft)
    (config₁ config₂ : Policy.Convergence) (carried₁ carried₂ : Option Carried) (late₁ late₂ : Nat → Bool)
    (d₁ d₂ : Diagnostics)
    (hcap₁ : (e₁.passUnder late₁ ctx ⟨scope, config₁, carried₁⟩ d₁).Uncapped)
    (hcap₂ : (e₂.passUnder late₂ { ctx with txnSeq := txnSeq } ⟨scope, config₂, carried₂⟩ d₂).Uncapped)
    (hfit₁ : State.fitsAll ctx.draft (e₁.writes late₁ ctx ⟨scope, config₁, carried₁⟩))
    (hfit₂ : State.fitsAll ctx.draft (e₂.writes late₂ { ctx with txnSeq := txnSeq } ⟨scope, config₂, carried₂⟩)) :
    (e₁.passUnder late₁ ctx ⟨scope, config₁, carried₁⟩ d₁).result
      = (e₂.passUnder late₂ { ctx with txnSeq := txnSeq } ⟨scope, config₂, carried₂⟩ d₂).result := by
  obtain ⟨hg₁, hw₁⟩ := he₁.same
  obtain ⟨hg₂, hw₂⟩ := he₂.same
  have hdue : ∀ j ∈ c.wiring.order scope, ¬ c.graph.Settled ctx.draft j → c.graph.Dirtied ctx.dirty j :=
    fun j hj hn => hcover.dirtied hc.wired.graph hl hj (hold j hj) hn
  have h₁ : Fair late₁ e₁ ctx ⟨scope, config₁, carried₁⟩ := by
    refine ⟨he₁.sound hc, ?_, hfit₁, uncapped_of_degrade hcap₁.1 hcap₁.2⟩
    rw [hg₁, hw₁]
    exact fun j hj hn => .inl (hdue j hj hn)
  have h₂ : Fair late₂ e₂ { ctx with txnSeq := txnSeq } ⟨scope, config₂, carried₂⟩ := by
    refine ⟨he₂.sound hc, ?_, hfit₂, uncapped_of_degrade hcap₂.1 hcap₂.2⟩
    rw [hg₂, hw₂]
    exact fun j hj hn => .inl (hdue j hj hn)
  rw [passUnder_result, passUnder_result, h₁.swept_eq h₂ (hg₁ ▸ hl) (hg₂.trans hg₁.symm) (hw₂.trans hw₁.symm) rfl rfl,
    hg₁, hg₂]
  rfl

end Executor

theorem Relay.passes_agree_full_dirty :
    (Relay.executor.passUnder (fun _ => false) ⟨Relay.state 2 1 1, [], .ofPaths [Relay.x], 2⟩
        ⟨.all, Relay.config .full 9, none⟩ (.ofReporting .builtin false)).result
      = (Relay.executor.passUnder (fun _ => false) ⟨Relay.state 2 1 1, [], .ofPaths [Relay.x], 7⟩
        ⟨.all, Relay.config .dirty 5, none⟩ (.ofReporting .builtin false)).result := by
  refine Executor.passes_agree Relay.compiled_of Relay.local_ (.ofCompiled _) (.ofCompiled _) Relay.settled_at_rest
    ⟨Relay.state 2 1 1, [], .ofPaths [Relay.x], 2⟩ 7 ?_ _ _ _ _ _ _ _ _ ?_ ?_ ?_ ?_
  · exact Relay.covers_x _ _ _ _
  · constructor <;> cbv <;> intro h <;> cases h
  · constructor <;> cbv <;> intro h <;> cases h
  · cbv
  · cbv

end Settle
