/-
  Settle.Proofs.Forward — scopes in which no step affects an earlier one (see
  `Settle.Pass.Sweep`).

  There a sweep has one round (`Pass.rounds_forward`), and a plan for forced steps begins
  with one of them (`Plan.IsPlan.head_forced`): planning anew from those that come later
  leaves its first step out (`Plan.IsPlan.tail`). A round that neither a clock nor a
  failure stops is stopped by its cap alone, before a step that is due
  (`Pass.round_stop`). Whatever round ran, and wherever it stopped, running every step once
  after it comes to the same as before it (`Pass.round_runAll`): this is what every way to
  the end has in common.
-/

import Settle.Proofs.Carry

namespace Settle

/-! ## Scopes without back references -/

/-- No step of the scope affects an earlier one. -/
def Wiring.Forward (w : Wiring) (scope : Scope) : Prop :=
  ∀ i ∈ w.order scope, w.affectsEarlier scope (w.out i) i = false

namespace Plan

variable {g : Graph} {w : Wiring} {scope : Scope} {forced : List StepId}

/-- The plan that goes on with these steps and no roots. -/
theorem compute_forced (h : Wired g w) {expired : Bool} {plan : List StepId}
    (hp : compute w scope [] forced expired = some plan) : IsPlan g w scope [] forced plan := by
  refine compute_isPlan h ?_ hp
  intro k hk
  cases hk

/-- What steps reach forward stands no earlier than all of them. -/
theorem reached_forward (h : Wired g w) (hfw : w.Forward scope) {L₁ L₂ : List StepId} (hL : w.order scope = L₁ ++ L₂)
    (hf : ∀ s ∈ forced, s ∈ L₂) {s : StepId} (hs : Reached g w scope [] forced s) : s ∈ L₂ := by
  induction hs with
  | forced hm _ => exact hf _ hm
  | root hk _ => cases hk
  | @step t s _ hit ih =>
    obtain ⟨ho, p, hp, hmv⟩ := hit
    rw [hL] at ho
    refine (List.mem_append.1 ho).resolve_left fun hs => ?_
    obtain ⟨a, b, rfl⟩ := List.append_of_mem ih
    have hsplit : w.order scope = (L₁ ++ a) ++ t :: b := by rw [hL, List.append_assoc]
    have hearlier := (h.affectsEarlier_iff hsplit hp).2 ⟨s, List.mem_append_left _ hs, hmv⟩
    rw [hfw t (hL ▸ List.mem_append_right _ (List.mem_append_right _ List.mem_cons_self))] at hearlier
    cases hearlier

/-- The order before the first step of a plan has no step of it, and the rest of the plan
follows. -/
theorem IsPlan.split (h : Wired g w) {i : StepId} {l : List StepId} (hp : IsPlan g w scope [] forced (i :: l)) :
    ∃ L₁ L₂, w.order scope = (L₁ ++ [i]) ++ L₂ ∧ i ∉ L₂ ∧ ∀ s ∈ l, s ∈ L₂ := by
  obtain ⟨L₁, L₂, hL, -, -, hl⟩ := List.filter_eq_cons_iff.1 hp.inOrder.symm
  have hnd := h.nodup_order scope
  rw [hL] at hnd
  have hi : i ∉ L₂ := (List.nodup_cons.1 (List.nodup_append.1 hnd).2.1).1
  refine ⟨L₁, L₂, by simp [hL], hi, fun s hs => ?_⟩
  rw [← hl] at hs
  exact (List.mem_filter.1 hs).1

/-- A plan of forced steps begins with one of them. -/
theorem IsPlan.head_forced (h : Wired g w) (hfw : w.Forward scope) {i : StepId} {l : List StepId}
    (hp : IsPlan g w scope [] forced (i :: l)) (hf : ∀ s ∈ forced, s ∈ w.order scope) : i ∈ forced := by
  obtain ⟨L₁, L₂, hL, hi, hl⟩ := hp.split h
  refine Classical.byContradiction fun hn => hi ?_
  refine reached_forward h hfw hL (fun s hs => ?_) ((hp.mem_iff i).1 List.mem_cons_self)
  rcases List.mem_cons.1 ((hp.mem_iff s).2 (.forced hs (hf s hs))) with rfl | hs'
  · exact absurd hs hn
  · exact hl s hs'

/-- What later steps of a plan reach is part of what follows its first step. -/
theorem IsPlan.tail (h : Wired g w) (hfw : w.Forward scope) {i : StepId} {l later plan : List StepId}
    (hp : IsPlan g w scope [] forced (i :: l)) (hlater : ∀ s ∈ later, s ∈ l)
    (hp' : IsPlan g w scope [] later plan) : plan.Sublist l := by
  obtain ⟨L₁, L₂, hL, hi, hl⟩ := hp.split h
  have hreached : ∀ s ∈ later, Reached g w scope [] forced s := fun s hs =>
    (hp.mem_iff s).1 (List.mem_cons_of_mem i (hlater s hs))
  have hsub : plan.Sublist (i :: l) := hp'.sublist hp fun s hs => hs.trans hreached
  cases hsub with
  | cons _ hsub => exact hsub
  | cons_cons _ _ =>
    have hi' := reached_forward h hfw hL (fun s hs => hl s (hlater s hs)) ((hp'.mem_iff i).1 List.mem_cons_self)
    exact absurd hi' hi

end Plan

namespace Pass

variable {f : Frame} {i : StepId} {r r' : Run} {u : Bool} {l : List StepId}

theorem Stepped.again (h : Wired f.graph f.wiring) (hfw : f.wiring.Forward f.scope)
    (hi : i ∈ f.wiring.order f.scope) {out : Run × Option Fault} (hst : Stepped f i r out) : out.1.again = r.again := by
  cases hst with
  | failed _ ht _ => exact congrArg Trail.again ht
  | settled _ ht _ _ => exact congrArg Trail.again ht
  | @wrote s out prev next _ hs _ _ ht _ _ =>
    refine (congrArg Trail.again ht).trans ?_
    rw [Trail.write, ← h.out_eq hs, h.graph.id_eq hs, hfw i hi]
    rfl

/-- Where no step affects an earlier one a round keeps no field for another. -/
theorem round_again (h : Wired f.graph f.wiring) (hfw : f.wiring.Forward f.scope)
    (hl : ∀ j ∈ l, j ∈ f.wiring.order f.scope) (r : Run) : (round f u l r).1.again = r.again := by
  fun_induction round f u l r with
  | case1 | case3 | case4 => rfl
  | case2 _ _ _ _ ih => exact ih (List.forall_mem_cons.1 hl).2
  | case5 i _ r _ _ _ r' fault he =>
    have hi := hl i List.mem_cons_self
    have hst := (stepped (r := r) h hi).again h hfw hi
    rw [he] at hst
    exact hst
  | case6 i _ r _ _ _ r' he ih =>
    have hi := hl i List.mem_cons_self
    have hst := (stepped (r := r) h hi).again h hfw hi
    rw [he] at hst
    exact (ih (List.forall_mem_cons.1 hl).2).trans hst

/-- There a sweep has one round. -/
theorem rounds_forward (h : Wired f.graph f.wiring) (hfw : f.wiring.Forward f.scope)
    (hl : ∀ j ∈ l, j ∈ f.wiring.order f.scope) (hnone : r.again = []) (n : Nat) :
    rounds f u l r n = ⟨(round f u l r).1, (round f u l r).2, n, u⟩ := by
  have hempty : { r with again := [] } = r := by rw [← hnone]
  have hagain := (round_again (u := u) h hfw hl r).trans hnone
  rw [rounds_eq h hl, hempty]
  dsimp only
  rw [hagain, List.isEmpty_nil, Bool.or_true, if_pos rfl]

/-! ## Where a round stops -/

/-- The time budget never passes. -/
def Frame.Untimed (f : Frame) : Prop := ∀ n, f.late n = false

/-- A round that neither a clock nor a failure stops, step by step. -/
theorem round_cons (hlate : f.Untimed) (ht : f.graph.Total) (r : Run) :
    round f u (i :: l) r =
      if (u || r.marks.touchesStep f.wiring i) = true then
        if f.cap ≤ r.executed then (r, some (.cap .cycleDetected (i :: l))) else round f u l (r.step f i).1
      else round f u l r := by
  have hi := step_total ht i r
  rw [round, hlate]
  cases hdue : (u || r.marks.touchesStep f.wiring i) with
  | false =>
    obtain ⟨rfl, hm⟩ := Bool.or_eq_false_iff.1 hdue
    simp [hm]
  | true =>
    have hskip : (!u && !r.marks.touchesStep f.wiring i) = false := by
      rw [← Bool.not_or, hdue]
      rfl
    simp only [hskip, Bool.false_eq_true, if_false, and_false, if_true]
    generalize r.step f i = out at hi
    obtain ⟨r', o⟩ := out
    subst hi
    rfl

/-- It is stopped at the cap alone, before a step that is due. -/
theorem round_stop (hlate : f.Untimed) (ht : f.graph.Total) {stop : Stop} (hs : (round f u l r).2 = some stop) :
    ∃ i rest, stop = .cap .cycleDetected (i :: rest) ∧ (i :: rest) <:+ l ∧ f.cap ≤ (round f u l r).1.executed ∧
      (u || (round f u l r).1.marks.touchesStep f.wiring i) = true := by
  induction l generalizing r with
  | nil => cases hs
  | cons i l ih =>
    have hcons := List.suffix_cons i l
    rw [round_cons hlate ht] at hs ⊢
    split at hs
    · rename_i hdue
      rw [if_pos hdue]
      split at hs
      · rename_i hcap
        rw [if_pos hcap]
        cases hs
        exact ⟨i, l, rfl, List.suffix_refl _, hcap, hdue⟩
      · rename_i hcap
        rw [if_neg hcap]
        obtain ⟨j, rest, he, hsuf, hrun⟩ := ih hs
        exact ⟨j, rest, he, hsuf.trans hcons, hrun⟩
    · rename_i hdue
      rw [if_neg hdue]
      obtain ⟨j, rest, he, hsuf, hrun⟩ := ih hs
      exact ⟨j, rest, he, hsuf.trans hcons, hrun⟩

/-- One that runs its first step leaves only later ones. -/
theorem round_rest (hlate : f.Untimed) (ht : f.graph.Total) (hdue : (u || r.marks.touchesStep f.wiring i) = true)
    (hcap : r.executed < f.cap) {reason : Degrade} {rest : List StepId}
    (hs : (round f u (i :: l) r).2 = some (.cap reason rest)) : rest <:+ l := by
  rw [round_cons hlate ht, if_pos hdue, if_neg (Nat.not_le_of_lt hcap)] at hs
  obtain ⟨j, rest', he, hsuf, -⟩ := round_stop hlate ht hs
  cases he
  exact hsuf

/-- One over every step stops after as many as the cap allows. -/
theorem round_full (h : Wired f.graph f.wiring) (hl : ∀ j ∈ l, j ∈ f.wiring.order f.scope) (hlate : f.Untimed)
    (ht : f.graph.Total) {n : Nat} (hcap : r.executed + n = f.cap) :
    (round f true l r).2 = if l.length ≤ n then none else some (.cap .cycleDetected (l.drop n)) := by
  induction l generalizing r n with
  | nil => rfl
  | cons i l ih =>
    have hl' : ∀ j ∈ l, j ∈ f.wiring.order f.scope := fun j hj => hl j (List.mem_cons_of_mem i hj)
    have hexec := (stepped (r := r) h (hl i List.mem_cons_self)).executed
    rw [round_cons hlate ht, Bool.true_or, if_pos rfl]
    cases n with
    | zero =>
      rw [if_pos (by omega)]
      rfl
    | succ n =>
      rw [if_neg (by omega), ih hl' (n := n) (by omega), List.length_cons, List.drop_succ_cons]
      by_cases hle : l.length ≤ n
      · rw [if_pos hle, if_pos (by omega)]
      · rw [if_neg hle, if_neg (by omega)]

end Pass

/-! ## Running every step once -/

/-- The state after running each of the steps once, a step that fails left out. -/
def Graph.runAll (g : Graph) : List StepId → Value → Value
  | [], v => v
  | i :: rest, v =>
    match g.effect i v, (g.step? i).bind fun s => g.table.path? s.out with
    | .ok (some (_, next)), some out => g.runAll rest (State.write v out next).state
    | _, _ => g.runAll rest v

theorem Graph.runAll_settled {g : Graph} {v : Value} {L₁ : List StepId} (h : ∀ j ∈ L₁, g.Settled v j)
    (L₂ : List StepId) : g.runAll (L₁ ++ L₂) v = g.runAll L₂ v := by
  induction L₁ with
  | nil => rfl
  | cons i L₁ ih =>
    have hi : g.effect i v = .ok none := h i List.mem_cons_self
    rw [List.cons_append, runAll, hi]
    exact ih fun j hj => h j (List.mem_cons_of_mem i hj)

namespace Pass

variable {f : Frame} {u : Bool} {P : StepId → Bool} {v : Value}

theorem Stepped.runAll {i : StepId} {r r' : Run} (hst : Stepped f i r (r', none)) (L : List StepId) :
    f.graph.runAll (i :: L) r.draft = f.graph.runAll L r'.draft := by
  cases hst with
  | settled hs ht _ _ =>
    have hd : r'.draft = r.draft := congrArg Trail.draft ht
    have he : f.graph.effect i r.draft = .ok none := hs
    rw [Graph.runAll, he, hd]
  | wrote hs hout he ht _ _ =>
    rw [show r'.draft = _ from congrArg Trail.draft ht, Graph.runAll, he, hs, Option.bind_some, hout]
    rfl

/-- With no field kept for another round what is past is settled. -/
theorem Kept.runAll {L : List StepId} {r : Run} (hk : Kept f u P (fun _ => False) v L r) (hnone : r.again = []) :
    f.graph.runAll (f.wiring.order f.scope) r.draft = f.graph.runAll L r.draft := by
  obtain ⟨L₀, hL, hb⟩ := hk.behind
  rw [hL]
  refine Graph.runAll_settled (fun j hj => Classical.byContradiction fun hn => ?_) L
  rcases hb j hj hn with hX | ⟨k, hka, -⟩
  · exact hX
  · rw [hnone] at hka
    cases hka

/-- Where no step affects an earlier one a round that is due for all that is unsettled
does part of what running every step once does. -/
theorem round_runAll (h : Wired f.graph f.wiring) (hl : f.graph.Local) (hr : f.graph.Reflexive)
    (hself : f.graph.SelfFree) (ht : f.graph.Total) (hfw : f.wiring.Forward f.scope) {ps : List Patch}
    (hfit : State.fitsAll v (f.graph.writesOf ps)) (hP : Closes f P) {r : Run}
    (hk : Kept f u P (fun _ => False) v (f.wiring.order f.scope) r) (hnone : r.again = [])
    (hps : (round f u ((f.wiring.order f.scope).filter P) r).1.patches <+: ps) :
    f.graph.runAll (f.wiring.order f.scope) (round f u ((f.wiring.order f.scope).filter P) r).1.draft
      = f.graph.runAll (f.wiring.order f.scope) r.draft := by
  have htotal := round_total ht u ((f.wiring.order f.scope).filter P) r
  have hround : Rounded f P (fun L r' => Kept f u P (fun _ => False) v L r' ∧ r'.again = [] ∧
        f.graph.runAll (f.wiring.order f.scope) r'.draft = f.graph.runAll (f.wiring.order f.scope) r.draft)
      (f.wiring.order f.scope) (round f u ((f.wiring.order f.scope).filter P) r) := by
    refine round_rule h ?_ ?_ (fun _ hj => hj) hps ⟨hk, hnone, rfl⟩
    · intro i L r' ⟨hk, ha, he⟩ hs
      exact ⟨hk.skip hs, ha, he⟩
    · intro i L r' r'' ⟨hk, ha, he⟩ hi hPi hst hps'
      have hk' := hk.run h hl hr hself hfit hP hPi hst hps'
      have ha' : r''.again = [] := (hst.again h hfw hi).trans ha
      refine ⟨hk', ha', ?_⟩
      rw [hk'.runAll ha', ← hst.runAll L, ← hk.runAll ha]
      exact he
  generalize round f u ((f.wiring.order f.scope).filter P) r = out at hround htotal
  cases hround with
  | ended hI => exact hI.2.2
  | capped _ _ hI => exact hI.2.2
  | failed => exact absurd rfl (htotal _ _)

end Pass

/-! ## Choosing again -/

namespace Pass

variable {g : Graph} {w : Wiring} {scope : Scope} {config : Policy.Convergence} {forced : List StepId}

/-- Going on with these steps and no roots runs a plan. -/
def Replans (w : Wiring) (scope : Scope) (config : Policy.Convergence) (forced : List StepId) : Prop :=
  config.mode ≠ .full ∧
    ∃ plan, Plan.compute w scope [] forced (Decidable.decide (config.mode = .auto) && decisionExpired config) = some plan ∧
      (config.mode = .auto → 10 * plan.length < 9 * w.scopeSize scope)

theorem nearFullShare_pos (n : Nat) : 0 < nearFullShare n := by
  unfold nearFullShare
  split
  · decide
  split
  · decide
  split
  · decide
  · decide

/-- A pass that goes on with steps, after the first transaction, runs a plan of them or
its whole scope. -/
theorem decide_resumed (w : Wiring) (cache : PlanCache) {txnSeq : Nat} (hseq : 1 < txnSeq) (scope : Scope)
    (config : Policy.Convergence) (hf : forced ≠ []) :
    (Replans w scope config forced ∧ (decide w cache txnSeq scope config ⟨[], none⟩ forced).executed = .dirty ∧
        Plan.compute w scope [] forced (Decidable.decide (config.mode = .auto) && decisionExpired config)
          = some (decide w cache txnSeq scope config ⟨[], none⟩ forced).steps) ∨
      (¬ Replans w scope config forced ∧ (decide w cache txnSeq scope config ⟨[], none⟩ forced).executed = .full ∧
        (decide w cache txnSeq scope config ⟨[], none⟩ forced).steps = w.order scope) := by
  unfold decide
  dsimp only
  by_cases hmode : config.mode = .full
  · rw [if_pos hmode]
    exact .inr ⟨fun h => h.1 hmode, rfl, rfl⟩
  rw [if_neg hmode, if_neg (by omega), if_neg (by simp)]
  have hshare : ¬ (config.mode = .auto ∧
      nearFullShare (w.scopeSize scope) * max 1 w.pathCount ≤ 1000 * ([] : List PathId).length) := by
    intro ⟨_, hle⟩
    have hpos : 0 < nearFullShare (w.scopeSize scope) * max 1 w.pathCount :=
      Nat.mul_pos (nearFullShare_pos _) (Nat.lt_of_lt_of_le Nat.zero_lt_one (Nat.le_max_left _ _))
    rw [List.length_nil] at hle
    omega
  have hempty : forced.isEmpty = false := by
    cases forced with
    | nil => exact absurd rfl hf
    | cons => rfl
  rw [if_neg hshare, plan, hempty]
  simp only [Bool.false_eq_true, if_false]
  cases hc : Plan.compute w scope [] forced (Decidable.decide (config.mode = .auto) && decisionExpired config) with
  | none =>
    refine .inr ⟨?_, rfl, rfl⟩
    intro ⟨_, plan, hplan, _⟩
    rw [hc] at hplan
    cases hplan
  | some plan =>
    dsimp only
    by_cases hfew : config.mode = .auto ∧ 9 * w.scopeSize scope ≤ 10 * plan.length
    · rw [if_pos hfew]
      refine .inr ⟨?_, rfl, rfl⟩
      intro ⟨_, plan', hplan', hlt⟩
      rw [hc] at hplan'
      cases hplan'
      have := hlt hfew.1
      omega
    · rw [if_neg hfew]
      refine .inl ⟨⟨hmode, plan, hc, fun ha => ?_⟩, rfl, rfl⟩
      exact Nat.lt_of_not_le fun hle => hfew ⟨ha, hle⟩

theorem Replans.of_dirty (hmode : config.mode = .dirty) (forced : List StepId) : Replans w scope config forced := by
  obtain ⟨plan, hplan⟩ := Plan.compute_of_unexpired w scope [] forced
  refine ⟨by rw [hmode]; nofun, plan, ?_, fun ha => ?_⟩
  · rw [hmode]
    exact hplan
  · rw [hmode] at ha
    cases ha

theorem Replans.exists_plan (h : Wired g w) (hr : Replans w scope config forced) :
    ∃ plan, Plan.IsPlan g w scope [] forced plan := by
  obtain ⟨-, plan, hplan, -⟩ := hr
  exact ⟨plan, Plan.compute_forced h hplan⟩

/-- Going on with no more runs no more. -/
theorem Replans.mono (h : Wired g w) {forced' : List StepId}
    (hsub : ∀ s, Plan.Reached g w scope [] forced' s → Plan.Reached g w scope [] forced s)
    (hr : Replans w scope config forced) : Replans w scope config forced' := by
  obtain ⟨hmode, plan, hplan, hfew⟩ := hr
  have hp := Plan.compute_forced h hplan
  obtain ⟨plan', hplan'⟩ := Plan.compute_of_unexpired w scope [] forced'
  have hp' := Plan.compute_forced h hplan'
  have hlen := (hp'.sublist hp hsub).length_le
  refine ⟨hmode, plan', ?_, fun ha => ?_⟩
  · cases hx : Decidable.decide (config.mode = .auto) && decisionExpired config with
    | false => exact hplan'
    | true =>
      rw [hx] at hplan
      have hmany : ¬ (Plan.compute w scope [] forced true = none) := by
        rw [hplan]
        nofun
      rw [Plan.compute_of_expired h hp] at hmany
      cases hc : Plan.compute w scope [] forced' true with
      | none =>
        obtain ⟨hs, hle⟩ := (Plan.compute_of_expired h hp').1 hc
        exact absurd ⟨hs, Nat.le_trans hle hlen⟩ hmany
      | some plan'' => rw [(Plan.compute_forced h hc).eq hp']
  · have := hfew ha
    omega

end Pass

end Settle
