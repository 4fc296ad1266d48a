/-
  Settle.Proofs.Sweep — steps and rounds of a sweep (see `Settle.Pass.Sweep`).

  Running a step does one of three things (`Stepped`): the step fails, it is settled and
  nothing is written, or its field is written and marked. What a round keeps of its
  steps to come is therefore shown once for a step passed over and once for a step run
  (`round_rule`); a round that is stopped leaves it for the rest of its list.
-/

import Settle.Proofs.Reach
import Settle.Proofs.Settled

namespace Settle

/-! ## Logs -/

/-- The write that a patch of a step records. -/
def Graph.writeOf? (g : Graph) (p : Patch) : Option (Path × Value) :=
  p.step.bind fun i => (g.step? i).bind fun s => (g.table.path? s.out).bind fun out => p.next.map fun v => (out, v)

/-- The writes that patches of steps record, in order. -/
def Graph.writesOf (g : Graph) (ps : List Patch) : List (Path × Value) := ps.filterMap g.writeOf?

theorem Graph.writesOf_append (g : Graph) (ps qs : List Patch) :
    g.writesOf (ps ++ qs) = g.writesOf ps ++ g.writesOf qs := List.filterMap_append

namespace Pass

/-- What a sweep has written, counts and marks apart. -/
structure Trail where
  draft : Value
  patches : List Patch
  changed : List PathId
  again : List PathId

def Run.trail (r : Run) : Trail := ⟨r.draft, r.patches, r.changed, r.again⟩

/-- Write the value of a step at its path. -/
def Trail.write (f : Frame) (k : Trail) (s : Step) (out : Path) (prev : Option Value) (next : Value) : Trail where
  draft := (State.write k.draft out next).state
  patches := k.patches ++ [⟨s.label, patchReason s.kind, prev, some next, some s.id⟩]
  changed := k.changed ++ [s.out]
  again := if f.wiring.affectsEarlier f.scope s.out s.id then k.again ++ [s.out] else k.again

/-- What running a step does to a run. -/
inductive Stepped (f : Frame) (i : StepId) (r : Run) : Run × Option Fault → Prop
  | failed {fault : Fault} {r' : Run} : f.graph.effect i r.draft = .error fault → r'.trail = r.trail →
      r'.executed = r.executed + 1 → Stepped f i r (r', some fault)
  | settled {r' : Run} : f.graph.Settled r.draft i → r'.trail = r.trail → r'.marks = r.marks →
      r'.executed = r.executed + 1 → Stepped f i r (r', none)
  | wrote {s : Step} {out : Path} {prev : Option Value} {next : Value} {r' : Run} : f.graph.step? i = some s →
      f.graph.table.path? s.out = some out → f.graph.effect i r.draft = .ok (some (prev, next)) →
      r'.trail = r.trail.write f s out prev next → r'.marks = r.marks.mark f.wiring s.out →
      r'.executed = r.executed + 1 → Stepped f i r (r', none)

variable {f : Frame} {i : StepId} {r r' : Run}

theorem stepped_of_step? (h : f.graph.WellFormed) {s : Step} (hs : f.graph.step? i = some s) :
    Stepped f i r (r.step f i) := by
  obtain ⟨body, hb⟩ := h.exists_body hs
  obtain ⟨out, hout, -⟩ := h.out hs
  have heff := Graph.effect_eq hs hb r.draft f.traced
  unfold Run.step
  simp only [hs, hb]
  cases he : evaluate f.graph s body r.draft f.traced with
  | error fault => exact .failed (by rw [heff, he]; rfl) rfl rfl
  | ok e =>
    rw [he] at heff
    simp only
    cases hc : e.change with
    | none =>
      refine .settled (by rw [Graph.Settled, heff, ← hc]; rfl) ?_ ?_ ?_
      all_goals split <;> rfl
    | some change =>
      obtain ⟨prev, next⟩ := change
      have he : f.graph.effect i r.draft = .ok (some (prev, next)) := by
        rw [heff, ← hc]
        rfl
      refine .wrote hs hout he ?_ ?_ ?_
      all_goals split <;> simp [Run.trail, Run.write, Trail.write, hout]

theorem stepped (h : Wired f.graph f.wiring) (hi : i ∈ f.wiring.order f.scope) : Stepped f i r (r.step f i) := by
  obtain ⟨s, hs, -⟩ := h.mem_order.1 hi
  exact stepped_of_step? h.graph hs

theorem Stepped.executed {out : Run × Option Fault} (h : Stepped f i r out) : out.1.executed = r.executed + 1 := by
  cases h with
  | failed _ _ he => exact he
  | settled _ _ _ he => exact he
  | wrote _ _ _ _ _ he => exact he

theorem Stepped.again_lt {out : Run × Option Fault} (h : Stepped f i r out)
    (ha : ∀ k ∈ r.again, k < f.graph.table.size) : ∀ k ∈ out.1.again, k < f.graph.table.size := by
  show ∀ k ∈ out.1.trail.again, k < f.graph.table.size
  cases h with
  | failed _ ht _ => exact ht ▸ ha
  | settled _ ht _ _ => exact ht ▸ ha
  | wrote _ hout _ ht _ _ =>
    intro k hk
    rw [ht, Trail.write] at hk
    dsimp only at hk
    split at hk
    · rcases List.mem_append.1 hk with hk | hk
      · exact ha k hk
      · exact List.mem_singleton.1 hk ▸ PathTable.lt_size hout
    · exact ha k hk

theorem step_patches (f : Frame) (i : StepId) (r : Run) : r.patches <+: (r.step f i).1.patches := by
  unfold Run.step
  split
  · dsimp only
    split
    · exact List.prefix_refl _
    · split
      · simp only [Run.write]
        split <;> exact List.prefix_append _ _
      · dsimp only
        split <;> exact List.prefix_refl _
  · exact List.prefix_refl _

/-- Derive functions that never fail make no step fail. -/
theorem step_total (ht : f.graph.Total) (i : StepId) (r : Run) : (r.step f i).2 = none := by
  unfold Run.step
  split
  · rename_i s body hs hb
    dsimp only
    obtain ⟨change, he⟩ := Graph.exists_effect ht i r.draft
    rw [Graph.effect_eq hs hb r.draft f.traced] at he
    cases hev : evaluate f.graph s body r.draft f.traced with
    | error fault =>
      rw [hev] at he
      cases he
    | ok e =>
      dsimp only
      split <;> rfl
  · rfl

/-! ## Replaying patches -/

/-- The draft is what the patches of the sweep make of the state it began with. -/
def Replays (g : Graph) (v : Value) (k : Trail) : Prop := k.draft = State.writeAll v (g.writesOf k.patches)

theorem writesOf_write (h : f.graph.WellFormed) {k : Trail} {s : Step} {out : Path} {prev : Option Value}
    {next : Value} (hs : f.graph.step? i = some s) (hout : f.graph.table.path? s.out = some out) :
    f.graph.writesOf (k.write f s out prev next).patches = f.graph.writesOf k.patches ++ [(out, next)] := by
  have hid := h.id_eq hs
  simp only [Trail.write, Graph.writesOf, List.filterMap_append, List.filterMap_cons, List.filterMap_nil,
    Graph.writeOf?, hid, Option.bind_some, hs, hout, Option.map_some]

theorem Replays.write (h : f.graph.WellFormed) {v : Value} {k : Trail} {s : Step} {out : Path}
    {prev : Option Value} {next : Value} (hk : Replays f.graph v k) (hs : f.graph.step? i = some s)
    (hout : f.graph.table.path? s.out = some out) : Replays f.graph v (k.write f s out prev next) := by
  unfold Replays at hk ⊢
  rw [writesOf_write h hs hout, State.writeAll_append, ← hk]
  rfl

theorem Stepped.replays (h : f.graph.WellFormed) {v : Value} {out : Run × Option Fault} (hst : Stepped f i r out)
    (hk : Replays f.graph v r.trail) : Replays f.graph v out.1.trail := by
  cases hst with
  | failed _ ht _ => exact ht.symm ▸ hk
  | settled _ ht _ _ => exact ht.symm ▸ hk
  | wrote hs hout _ ht _ _ => exact ht.symm ▸ hk.write h hs hout

theorem step_replays (h : f.graph.WellFormed) {v : Value} (i : StepId) (hr : Replays f.graph v r.trail) :
    Replays f.graph v (r.step f i).1.trail := by
  cases hs : f.graph.step? i with
  | none =>
    unfold Run.step
    simp only [hs]
    exact hr
  | some s => exact (stepped_of_step? h hs).replays h hr

/-- A write of a log that fits meets no array. -/
theorem fits_of_replays (h : f.graph.WellFormed) {v : Value} {k : Trail} {s : Step} {out : Path}
    {prev : Option Value} {next : Value} {ps : List Patch} (hk : Replays f.graph v k)
    (hs : f.graph.step? i = some s) (hout : f.graph.table.path? s.out = some out)
    (hfit : State.fitsAll v (f.graph.writesOf ps)) (hps : (k.write f s out prev next).patches <+: ps) :
    State.fits k.draft out.segments = true := by
  obtain ⟨more, rfl⟩ := hps
  rw [Graph.writesOf_append, writesOf_write h hs hout, List.append_assoc, State.fitsAll_append, ← hk] at hfit
  exact (Bool.and_eq_true_iff.1 hfit.2).1

/-! ## Rounds -/

theorem round_patches (f : Frame) (u : Bool) (l : List StepId) (r : Run) : r.patches <+: (round f u l r).1.patches := by
  -- a round ends, passes over a step, stops at its cap or its deadline, ends with a step that
  -- fails, or runs one
  fun_induction round f u l r with
  | case1 | case3 | case4 => exact List.prefix_refl _
  | case2 _ _ _ _ ih => exact ih
  | case5 i _ r _ _ _ _ _ he => exact (he ▸ step_patches f i r :)
  | case6 i _ r _ _ _ _ he ih =>
    have hi := step_patches f i r
    rw [he] at hi
    exact hi.trans ih

/-- How a round over the steps of `L` that `P` picks ends, when `I` is kept of the steps
to come. -/
inductive Rounded (f : Frame) (P : StepId → Bool) (I : List StepId → Run → Prop) (L : List StepId) :
    Run × Option Stop → Prop
  | ended {r' : Run} : I [] r' → Rounded f P I L (r', none)
  | capped {r' : Run} {d : Degrade} {L' : List StepId} : L' <:+ L → d ≠ .deriveFailed → I L' r' →
      Rounded f P I L (r', some (.cap d (L'.filter P)))
  | failed {r₀ r' : Run} {i : StepId} {L' : List StepId} {fault : Fault} : (i :: L') <:+ L → P i = true →
      I (i :: L') r₀ → Stepped f i r₀ (r', some fault) → Rounded f P I L (r', some (.failed i fault))

theorem Rounded.cons {P : StepId → Bool} {I : List StepId → Run → Prop} {L : List StepId} {out : Run × Option Stop}
    (h : Rounded f P I L out) : Rounded f P I (i :: L) out := by
  cases h with
  | ended hI => exact .ended hI
  | capped hL hd hI => exact .capped (hL.trans (List.suffix_cons i L)) hd hI
  | failed hL hP hI hst => exact .failed (hL.trans (List.suffix_cons i L)) hP hI hst

/-- What passing over a step keeps and running one keeps, a round keeps. -/
theorem round_rule (h : Wired f.graph f.wiring) {u : Bool} {P : StepId → Bool} {I : List StepId → Run → Prop}
    {ps : List Patch}
    (skip : ∀ i L r, I (i :: L) r → (P i = true → u = false ∧ r.marks.touchesStep f.wiring i = false) → I L r)
    (run : ∀ i L r r', I (i :: L) r → i ∈ f.wiring.order f.scope → P i = true → Stepped f i r (r', none) →
      r'.patches <+: ps → I L r')
    {L : List StepId} (hL : ∀ j ∈ L, j ∈ f.wiring.order f.scope) {r : Run}
    (hps : (round f u (L.filter P) r).1.patches <+: ps) (hI : I L r) :
    Rounded f P I L (round f u (L.filter P) r) := by
  induction L generalizing r with
  | nil => exact .ended hI
  | cons i L ih =>
    have hi := hL i List.mem_cons_self
    have hL' : ∀ j ∈ L, j ∈ f.wiring.order f.scope := fun j hj => hL j (List.mem_cons_of_mem i hj)
    have hst := stepped (r := r) h hi
    cases hP : P i with
    | false =>
      rw [List.filter_cons_of_neg (by simp [hP])] at hps ⊢
      exact (ih hL' hps (skip i L r hI (by simp [hP]))).cons
    | true =>
      have hcap : i :: L.filter P = (i :: L).filter P := (List.filter_cons_of_pos hP).symm
      rw [List.filter_cons_of_pos hP, round] at hps ⊢
      split at hps
      · rename_i hs
        rw [if_pos hs]
        simp only [Bool.and_eq_true, Bool.not_eq_true'] at hs
        exact (ih hL' hps (skip i L r hI fun _ => hs)).cons
      rename_i hs
      rw [if_neg hs]
      split
      · rw [hcap]
        exact .capped (List.suffix_refl _) nofun hI
      rename_i hc
      rw [if_neg hc] at hps
      split
      · rw [hcap]
        exact .capped (List.suffix_refl _) nofun hI
      rename_i hb
      rw [if_neg hb] at hps
      split
      · rename_i r' fault he
        rw [he] at hst
        exact .failed (List.suffix_refl _) hP hI hst
      · rename_i r' he
        rw [he] at hst
        simp only [he] at hps
        exact (ih hL' hps (run i L r r' hI hi hP hst ((round_patches f u _ r').trans hps))).cons

/-! ## What is due

In a round over the steps that `P` picks, an unsettled step still to come is picked, and
either the round is unconditional or a mark touches the step (`Ahead`). One that is past
was moved by a field that is kept for another round (`Behind`). Steps that `X` excuses
need neither. -/

structure Ahead (f : Frame) (u : Bool) (P : StepId → Bool) (X : StepId → Prop) (L : List StepId) (r : Run) : Prop where
  marks : ∃ ids, r.marks.Of f.graph ids
  due : ∀ j ∈ L, ¬ f.graph.Settled r.draft j →
    X j ∨ P j = true ∧ (u = true ∨ r.marks.touchesStep f.wiring j = true)

def Behind (f : Frame) (X : StepId → Prop) (L : List StepId) (r : Run) : Prop :=
  ∀ j ∈ L, ¬ f.graph.Settled r.draft j → X j ∨ ∃ k ∈ r.again, Plan.Hits f.graph f.wiring f.scope k j

/-- A step that was settled in the state `v` and no longer is was moved by a field that
was written. -/
def Moved (f : Frame) (v : Value) (r : Run) : Prop :=
  ∀ j, f.graph.Settled v j → ¬ f.graph.Settled r.draft j →
    ∃ k ∈ r.changed, ∃ p, f.graph.table.path? k = some p ∧ f.graph.Moves p j

/-- The picked steps are closed under what their fields may move. -/
def Closes (f : Frame) (P : StepId → Bool) : Prop :=
  ∀ t j, P t = true → Plan.Hits f.graph f.wiring f.scope (f.wiring.out t) j → P j = true

variable {u : Bool} {P : StepId → Bool} {X : StepId → Prop} {L : List StepId}

theorem Ahead.tail (h : Ahead f u P X (i :: L) r) : Ahead f u P X L r :=
  ⟨h.marks, fun j hj => h.due j (List.mem_cons_of_mem i hj)⟩

/-- A step that is passed over is settled or excused. -/
theorem Ahead.settled_of_skip (h : Ahead f u P X (i :: L) r)
    (hs : P i = true → u = false ∧ r.marks.touchesStep f.wiring i = false) (hn : ¬ f.graph.Settled r.draft i) : X i := by
  rcases h.due i List.mem_cons_self hn with hX | ⟨hP, hu⟩
  · exact hX
  · obtain ⟨hu', ht⟩ := hs hP
    rw [hu', ht] at hu
    rcases hu with hu | hu <;> cases hu

theorem touchesStep_mark (h : Wired f.graph f.wiring) {m : Marks} (hm : ∃ ids, m.Of f.graph ids) {k : PathId} {p : Path}
    (hk : f.graph.table.path? k = some p) {j : StepId} :
    (m.mark f.wiring k).touchesStep f.wiring j = true ↔ m.touchesStep f.wiring j = true ∨ f.graph.Moves p j := by
  obtain ⟨ids, hm⟩ := hm
  rw [(hm.mark h (PathTable.lt_size hk)).touchesStep_iff h, hm.touchesStep_iff h]
  constructor
  · intro ⟨n, hn, q, hq, hmv⟩
    rcases List.mem_append.1 hn with hn | hn
    · exact .inl ⟨n, hn, q, hq, hmv⟩
    · obtain rfl := List.mem_singleton.1 hn
      exact .inr (Option.some.inj (hk.symm.trans hq) ▸ hmv)
  · intro hcase
    rcases hcase with ⟨n, hn, q, hq, hmv⟩ | hmv
    · exact ⟨n, List.mem_append_left _ hn, q, hq, hmv⟩
    · exact ⟨k, List.mem_append_right _ (List.mem_singleton_self k), p, hk, hmv⟩

/-- Whether a step that a write may not move is settled is as before. -/
theorem settled_write (h : Wired f.graph f.wiring) (hl : f.graph.Local) {k : Trail} {s : Step} {out : Path}
    {prev : Option Value} {next : Value} (hs : f.graph.step? i = some s) (hout : f.graph.table.path? s.out = some out)
    (hfit : State.fits k.draft out.segments = true) {j : StepId} (hm : ¬ f.graph.Moves out j) :
    f.graph.Settled (k.write f s out prev next).draft j ↔ f.graph.Settled k.draft j := by
  obtain ⟨p, hp, hw⟩ := h.graph.out hs
  obtain rfl : out = p := Option.some.inj (hout.symm.trans hp)
  exact Graph.Settled.write h.graph hl hw hfit hm

theorem Ahead.run (h : Wired f.graph f.wiring) (hl : f.graph.Local) (hP : Closes f P) {v : Value} {ps : List Patch}
    (hfit : State.fitsAll v (f.graph.writesOf ps)) (ha : Ahead f u P X (i :: L) r)
    (hL : ∀ j ∈ L, j ∈ f.wiring.order f.scope) (hrep : Replays f.graph v r.trail) (hi : P i = true)
    (hst : Stepped f i r (r', none)) (hps : r'.patches <+: ps) : Ahead f u P X L r' := by
  cases hst with
  | settled _ ht hm _ =>
    have hd : r'.draft = r.draft := congrArg Trail.draft ht
    exact ⟨hm ▸ ha.marks, fun j hj => by rw [hd, hm]; exact ha.tail.due j hj⟩
  | @wrote s out prev next _ hs hout _ ht hm _ =>
    have hd : r'.draft = (r.trail.write f s out prev next).draft := congrArg Trail.draft ht
    have hfits := fits_of_replays h.graph hrep hs hout hfit (by rw [← ht]; exact hps)
    obtain ⟨ids, hids⟩ := ha.marks
    refine ⟨⟨ids ++ [s.out], hm ▸ hids.mark h (PathTable.lt_size hout)⟩, fun j hj hn => ?_⟩
    rw [hm, touchesStep_mark h ⟨ids, hids⟩ hout]
    by_cases hmv : f.graph.Moves out j
    · -- the step just run may have moved it, and so it is picked and touched
      have hhit : Plan.Hits f.graph f.wiring f.scope (f.wiring.out i) j := ⟨hL j hj, out, h.out_eq hs ▸ hout, hmv⟩
      exact .inr ⟨hP i j hi hhit, .inr (.inr hmv)⟩
    · rw [hd, settled_write h hl hs hout hfits hmv] at hn
      exact (ha.tail.due j hj hn).imp id fun ⟨hPj, hu⟩ => ⟨hPj, hu.imp id .inl⟩

theorem Behind.skip (hb : Behind f X L r) (hi : ¬ f.graph.Settled r.draft i → X i) : Behind f X (L ++ [i]) r := by
  intro j hj hn
  rcases List.mem_append.1 hj with hj | hj
  · exact hb j hj hn
  · obtain rfl := List.mem_singleton.1 hj
    exact .inl (hi hn)

/-- A step that has run is settled; what it moves among those past is kept. -/
theorem Behind.run (h : Wired f.graph f.wiring) (hl : f.graph.Local) (hr : f.graph.Reflexive) (hself : f.graph.SelfFree)
    {v : Value} {ps : List Patch} (hfit : State.fitsAll v (f.graph.writesOf ps)) {L' : List StepId}
    (hL : f.wiring.order f.scope = L ++ i :: L') (hb : Behind f X L r) (hrep : Replays f.graph v r.trail)
    (hst : Stepped f i r (r', none)) (hps : r'.patches <+: ps) : Behind f X (L ++ [i]) r' := by
  cases hst with
  | settled hs ht _ _ =>
    have hd : r'.draft = r.draft := congrArg Trail.draft ht
    have ha : r'.again = r.again := congrArg Trail.again ht
    unfold Behind
    rw [hd, ha]
    exact hb.skip fun hn => absurd hs hn
  | @wrote s out prev next _ hs hout he ht _ _ =>
    have hd : r'.draft = (r.trail.write f s out prev next).draft := congrArg Trail.draft ht
    have ha : r'.again = (r.trail.write f s out prev next).again := congrArg Trail.again ht
    have hfits := fits_of_replays h.graph hrep hs hout hfit (by rw [← ht]; exact hps)
    have hid := h.graph.id_eq hs
    intro j hj hn
    rcases List.mem_append.1 hj with hj | hj
    · have hin : j ∈ f.wiring.order f.scope := hL ▸ List.mem_append_left _ hj
      by_cases hmv : f.graph.Moves out j
      · have hearlier := (h.affectsEarlier_iff hL hout).2 ⟨j, hj, hmv⟩
        refine .inr ⟨s.out, ?_, hin, out, hout, hmv⟩
        rw [ha, Trail.write, hid, if_pos hearlier]
        exact List.mem_append_right _ (List.mem_singleton_self _)
      · rw [hd, settled_write h hl hs hout hfits hmv] at hn
        refine (hb j hj hn).imp id fun ⟨k, hk, hhit⟩ => ⟨k, ?_, hhit⟩
        rw [ha, Trail.write]
        dsimp only
        split
        · exact List.mem_append_left _ hk
        · exact hk
    · obtain rfl := List.mem_singleton.1 hj
      rw [hd] at hn
      exact absurd (Graph.effect_of_write h.graph hl hr hself hs hout hfits he) hn

theorem Moved.run (h : Wired f.graph f.wiring) (hl : f.graph.Local) {v : Value} {ps : List Patch}
    (hfit : State.fitsAll v (f.graph.writesOf ps)) (hm : Moved f v r) (hrep : Replays f.graph v r.trail)
    (hst : Stepped f i r (r', none)) (hps : r'.patches <+: ps) : Moved f v r' := by
  cases hst with
  | settled _ ht _ _ =>
    have hd : r'.draft = r.draft := congrArg Trail.draft ht
    have hc : r'.changed = r.changed := congrArg Trail.changed ht
    unfold Moved
    rw [hd, hc]
    exact hm
  | @wrote s out prev next _ hs hout _ ht _ _ =>
    have hd : r'.draft = (r.trail.write f s out prev next).draft := congrArg Trail.draft ht
    have hc : r'.changed = r.changed ++ [s.out] := congrArg Trail.changed ht
    have hfits := fits_of_replays h.graph hrep hs hout hfit (by rw [← ht]; exact hps)
    intro j hj hn
    rw [hc]
    by_cases hmv : f.graph.Moves out j
    · exact ⟨s.out, List.mem_append_right _ (List.mem_singleton_self _), out, hout, hmv⟩
    · rw [hd, settled_write h hl hs hout hfits hmv] at hn
      obtain ⟨k, hk, hit⟩ := hm j hj hn
      exact ⟨k, List.mem_append_left _ hk, hit⟩

/-! ## Round after round -/

/-- A round that did anything ran a step below the cap. -/
theorem round_progress (h : Wired f.graph f.wiring) {l : List StepId} (hl : ∀ j ∈ l, j ∈ f.wiring.order f.scope)
    (r : Run) :
    (round f u l r).1 = r ∨ r.executed < (round f u l r).1.executed ∧ r.executed < f.cap := by
  fun_induction round f u l r with
  | case1 | case3 | case4 => exact .inl rfl
  | case2 _ _ _ _ ih => exact ih (List.forall_mem_cons.1 hl).2
  | case5 i _ r _ hcap _ r' _ he =>
    have hst := (stepped (r := r) h (hl i List.mem_cons_self)).executed
    rw [he] at hst
    dsimp only at hst ⊢
    omega
  | case6 i _ r _ hcap _ r' he ih =>
    have hst := (stepped (r := r) h (hl i List.mem_cons_self)).executed
    rw [he] at hst
    dsimp only at hst
    rcases ih (List.forall_mem_cons.1 hl).2 with hsame | ⟨hlt, -⟩
    · rw [hsame]
      omega
    · omega

theorem round_again_lt (h : Wired f.graph f.wiring) {l : List StepId} (hl : ∀ j ∈ l, j ∈ f.wiring.order f.scope)
    (r : Run) (ha : ∀ k ∈ r.again, k < f.graph.table.size) :
    ∀ k ∈ (round f u l r).1.again, k < f.graph.table.size := by
  fun_induction round f u l r with
  | case1 | case3 | case4 => exact ha
  | case2 _ _ _ _ ih => exact ih (List.forall_mem_cons.1 hl).2 ha
  | case5 i _ r _ _ _ r' _ he => exact (he ▸ stepped (r := r) h (hl i List.mem_cons_self)).again_lt ha
  | case6 i _ r _ _ _ r' he ih =>
    exact ih (List.forall_mem_cons.1 hl).2 ((he ▸ stepped (r := r) h (hl i List.mem_cons_self)).again_lt ha)

/-- The run that another round begins with. -/
def Run.renewed (f : Frame) (r : Run) : Run := { r with marks := r.again.foldl (Marks.mark f.wiring) r.marks.clear }

/-- A round that another one follows runs a step. -/
theorem round_grew (h : Wired f.graph f.wiring) {l : List StepId} (hl : ∀ j ∈ l, j ∈ f.wiring.order f.scope) (r : Run)
    (hs : ¬ ((round f u l { r with again := [] }).2.isSome || (round f u l { r with again := [] }).1.again.isEmpty) = true) :
    r.executed < (round f u l { r with again := [] }).1.executed ∧ r.executed < f.cap := by
  rcases round_progress (u := u) h hl { r with again := [] } with he | hlt
  · rw [he] at hs
    simp at hs
  · exact hlt

/-- A sweep ends with a round that is stopped or keeps nothing, and goes on after any
other one. -/
theorem rounds_eq (h : Wired f.graph f.wiring) {l : List StepId} (hl : ∀ j ∈ l, j ∈ f.wiring.order f.scope) (r : Run)
    (n : Nat) :
    rounds f u l r n =
      let out := round f u l { r with again := [] }
      if out.2.isSome || out.1.again.isEmpty then ⟨out.1, out.2, n, u⟩
      else rounds f false (nextRound f out.1) (out.1.renewed f) (n + 1) := by
  rw [rounds]
  dsimp only
  split
  · rfl
  · rename_i hs
    exact if_pos (round_grew h hl r hs)

/-- A round adds to the log what it writes. -/
theorem round_replays (h : f.graph.WellFormed) {v : Value} {u : Bool} (l : List StepId)
    (hr : Replays f.graph v r.trail) : Replays f.graph v (round f u l r).1.trail := by
  fun_induction round f u l r with
  | case1 | case3 | case4 => exact hr
  | case2 _ _ _ _ ih => exact ih hr
  | case5 i _ r _ _ _ r' _ he => exact (he ▸ step_replays h i hr :)
  | case6 i _ r _ _ _ r' he ih => exact ih (he ▸ step_replays h i hr :)

/-- What holds of each round that ends a sweep, and of a round and the sweep after it if it
holds of that sweep, holds of all sweeps. -/
theorem rounds_rule {motive : Run → Swept → Prop}
    (last : ∀ u l r n,
      motive r ⟨(round f u l { r with again := [] }).1, (round f u l { r with again := [] }).2, n, u⟩)
    (next : ∀ u l r s, motive ((round f u l { r with again := [] }).1.renewed f) s → motive r s)
    (u : Bool) (l : List StepId) (r : Run) (n : Nat) : motive r (rounds f u l r n) := by
  have hlast := last u l r n
  have hnext := next u l r
  rw [rounds]
  generalize round f u l { r with again := [] } = out at hlast hnext
  dsimp only
  split
  · exact hlast
  split
  · exact hnext _ (rounds_rule last next false (nextRound f out.1) (out.1.renewed f) (n + 1))
  · exact hlast
termination_by f.cap - r.executed
decreasing_by
  simp only [Run.renewed]
  omega

theorem rounds_patches (f : Frame) (u : Bool) (l : List StepId) (r : Run) (n : Nat) :
    r.patches <+: (rounds f u l r n).run.patches := by
  refine rounds_rule (motive := fun r s => r.patches <+: s.run.patches) ?_ ?_ u l r n
  · exact fun u l r _ => round_patches f u l { r with again := [] }
  · exact fun u l r _ hrest => (round_patches f u l { r with again := [] }).trans hrest

theorem round_total (ht : f.graph.Total) (u : Bool) (l : List StepId) (r : Run) (i : StepId) (fault : Fault) :
    (round f u l r).2 ≠ some (.failed i fault) := by
  fun_induction round f u l r with
  | case1 | case3 | case4 => nofun
  | case2 _ _ _ _ ih | case6 _ _ _ _ _ _ _ _ ih => exact ih
  | case5 i _ r _ _ _ r' _ he => cases he ▸ step_total ht i r

theorem rounds_total (ht : f.graph.Total) (u : Bool) (l : List StepId) (r : Run) (n : Nat) (i : StepId)
    (fault : Fault) : (rounds f u l r n).stop ≠ some (.failed i fault) := by
  refine rounds_rule (motive := fun _ s => s.stop ≠ some (.failed i fault)) ?_ ?_ u l r n
  · exact fun u l r _ => round_total ht u l { r with again := [] } i fault
  · exact fun _ _ _ _ hrest => hrest

theorem round_prefix_rounds (f : Frame) (u : Bool) (l : List StepId) (r : Run) (n : Nat) :
    (round f u l { r with again := [] }).1.patches <+: (rounds f u l r n).run.patches := by
  rw [rounds]
  generalize round f u l { r with again := [] } = out
  dsimp only
  split
  · exact List.prefix_refl _
  split
  · exact rounds_patches f false (nextRound f out.1) (out.1.renewed f) (n + 1)
  · exact List.prefix_refl _

/-- A cap is told apart from a failure. -/
theorem round_reason {l : List StepId} {r : Run} {reason : Degrade} {rest : List StepId}
    (hs : (round f u l r).2 = some (.cap reason rest)) : reason = .cycleDetected ∨ reason = .budgetSteps := by
  fun_induction round f u l r with
  | case1 => cases hs
  | case2 _ _ _ _ ih | case6 _ _ _ _ _ _ _ _ ih => exact ih hs
  | case3 =>
    cases hs
    exact .inl rfl
  | case4 =>
    cases hs
    exact .inr rfl
  | case5 => cases hs

theorem rounds_reason {u : Bool} {l : List StepId} {r : Run} {n : Nat} {reason : Degrade} {rest : List StepId}
    (hs : (rounds f u l r n).stop = some (.cap reason rest)) : reason = .cycleDetected ∨ reason = .budgetSteps := by
  revert hs
  refine rounds_rule (motive := fun _ s => s.stop = some (.cap reason rest) → _) ?_ ?_ u l r n
  · exact fun _ _ _ _ hs => round_reason hs
  · exact fun _ _ _ _ hrest => hrest

/-- The next round runs what the fields kept for it reach. -/
theorem nextRound_isPlan (h : Wired f.graph f.wiring) (ha : ∀ k ∈ r.again, k < f.graph.table.size) :
    Plan.IsPlan f.graph f.wiring f.scope r.again [] (nextRound f r) := by
  obtain ⟨plan, hp⟩ := Plan.compute_of_unexpired f.wiring f.scope r.again []
  rw [nextRound, hp]
  exact Plan.compute_isPlan h ha hp

/-- At the end of a sweep the draft is what its patches make of the state it began with. -/
theorem rounds_replays (h : f.graph.WellFormed) {v : Value} (u : Bool) (l : List StepId) {r : Run}
    (hr : Replays f.graph v r.trail) (n : Nat) : Replays f.graph v (rounds f u l r n).run.trail := by
  revert hr
  refine rounds_rule (motive := fun r s => Replays f.graph v r.trail → Replays f.graph v s.run.trail) ?_ ?_ u l r n
  · exact fun u l r _ hr => round_replays (r := { r with again := [] }) h l hr
  · exact fun u l r _ hrest hr => hrest (round_replays (r := { r with again := [] }) h l hr)

theorem marks_renewed (h : Wired f.graph f.wiring) (hm : ∃ ids, r.marks.Of f.graph ids)
    (ha : ∀ k ∈ r.again, k < f.graph.table.size) : (r.renewed f).marks.Of f.graph r.again := by
  obtain ⟨ids, hm⟩ := hm
  have := hm.clear.foldl_mark h ha
  rwa [List.nil_append] at this

/-- A plan picks what it holds, and that is closed. -/
theorem Closes.ofPlan {roots : List PathId} {forced plan : List StepId}
    (hp : Plan.IsPlan f.graph f.wiring f.scope roots forced plan) : Closes f plan.contains := by
  intro t j ht hhit
  rw [List.contains_iff_mem, hp.mem_iff] at ht ⊢
  exact .step ht hhit

end Pass

end Settle
