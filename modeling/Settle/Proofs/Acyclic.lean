/-
  Settle.Proofs.Acyclic — a scope without a cycle settles in one ordered sweep (see
  `Settle.Pass.Sweep`).

  Where levels take every step of a scope, no step depends on a later one
  (`Graph.compile_pairwise`). If the fields of its steps lie apart as well, no step affects
  an earlier one (`Graph.forward_of_acyclic`): the triggers that tell a back reference
  while steps run agree with the reads that the order was made of. A pass then has one
  round, and what it runs is a part of the order as it stands, so a step runs after every
  other step that it reads, directly or through steps of the scope
  (`Executor.acyclic_ordered`).

  A scope is ordered by what its steps read of each other. A chain of reads that leaves
  the scope orders nothing: `Detour.reader_first` runs a step before the one that it reads
  through a deferred step.
-/

import Settle.Proofs.Fixpoint
import Settle.Proofs.Resume

namespace Settle

/-! ## The order of a scope -/

/-- A step stands before another one in the order of a scope. -/
def Wiring.Before (w : Wiring) (scope : Scope) (i j : StepId) : Prop :=
  ∃ m n, w.position scope i = some m ∧ w.position scope j = some n ∧ m < n

namespace Wiring

variable {w : Wiring} {scope : Scope} {i j k : StepId}

theorem Before.trans (hij : w.Before scope i j) (hjk : w.Before scope j k) : w.Before scope i k := by
  obtain ⟨m, n, hm, hn, hlt⟩ := hij
  obtain ⟨n', o, hn', ho, hlt'⟩ := hjk
  obtain rfl := Option.some.inj (hn.symm.trans hn')
  exact ⟨m, o, hm, ho, Nat.lt_trans hlt hlt'⟩

theorem Before.asymm (hij : w.Before scope i j) : ¬ w.Before scope j i := by
  intro hji
  obtain ⟨m, n, hm, hn, hlt⟩ := hij.trans hji
  obtain rfl := Option.some.inj (hm.symm.trans hn)
  exact Nat.lt_irrefl m hlt

/-- What the order keeps of any two of its steps. -/
theorem Before.of_pairwise {R : StepId → StepId → Prop} (hb : w.Before scope i j) (hp : (w.order scope).Pairwise R) :
    R i j := by
  obtain ⟨m, n, hm, hn, hlt⟩ := hb
  obtain ⟨hm', rfl, -⟩ := List.idxOf?_eq_some_iff.1 hm
  obtain ⟨hn', rfl, -⟩ := List.idxOf?_eq_some_iff.1 hn
  exact List.pairwise_iff_getElem.1 hp m n hm' hn' hlt

end Wiring

namespace Wired

variable {g : Graph} {w : Wiring} {scope : Scope} {i j : StepId}

theorem order_eq (h : Wired g w) (scope : Scope) : w.order scope = (g.orders.get scope).order := by
  rw [h.wiring, Wiring.order, Wiring.ofGraph, PerScope.get_map]

theorem position_getElem (h : Wired g w) {n : Nat} (hn : n < (w.order scope).length) :
    w.position scope (w.order scope)[n] = some n := Plan.idxOf?_getElem (h.nodup_order scope) hn

theorem before_pairwise (h : Wired g w) (scope : Scope) : (w.order scope).Pairwise (w.Before scope) :=
  List.pairwise_iff_getElem.2 fun m n hm hn hlt => ⟨m, n, h.position_getElem hm, h.position_getElem hn, hlt⟩

theorem before_or_before (h : Wired g w) (hi : i ∈ w.order scope) (hj : j ∈ w.order scope) (hne : i ≠ j) :
    w.Before scope i j ∨ w.Before scope j i := by
  obtain ⟨m, hm, rfl⟩ := List.mem_iff_getElem.1 hi
  obtain ⟨n, hn, rfl⟩ := List.mem_iff_getElem.1 hj
  have hmn : m ≠ n := fun e => hne (by subst e; rfl)
  rcases Nat.lt_or_gt_of_ne hmn with hlt | hlt
  · exact .inl ⟨m, n, h.position_getElem hm, h.position_getElem hn, hlt⟩
  · exact .inr ⟨n, m, h.position_getElem hn, h.position_getElem hm, hlt⟩

/-- Of two steps in a part of the order the one that stands before comes first. -/
theorem pair_sublist (h : Wired g w) {l : List StepId} (hl : l.Sublist (w.order scope)) (hi : i ∈ l) (hj : j ∈ l)
    (hb : w.Before scope j i) : [j, i].Sublist l := by
  obtain ⟨a, b, rfl⟩ := List.append_of_mem hi
  have hlater := (List.pairwise_cons.1 (List.pairwise_append.1 ((h.before_pairwise scope).sublist hl)).2.1).1
  rcases List.mem_append.1 hj with hj | hj
  · exact (List.singleton_sublist.2 hj).append (List.singleton_sublist.2 List.mem_cons_self)
  · rcases List.mem_cons.1 hj with rfl | hj
    · exact absurd hb hb.asymm
    · exact absurd hb (hlater j hj).asymm

end Wired

/-! ## Scopes without a cycle -/

namespace Graph

/-- A step of a scope depends on what a step of the scope writes. -/
def ReadsWithin (g : Graph) (scope : Scope) (i j : StepId) : Prop :=
  i ∈ (g.orders.get scope).order ∧ j ∈ (g.orders.get scope).order ∧ g.Reads i j

/-- The fields that steps of a scope write do not overlap. -/
def OutsApart (g : Graph) (scope : Scope) : Prop :=
  (g.orders.get scope).order.Pairwise fun i j => ∀ p q, g.out? i = some p → g.out? j = some q → ¬ p.overlaps q

variable {d : Declaration} {n : Nat} {g : Graph} {w : Wiring} {scope : Scope} {i j : StepId}

/-- Without a cycle a step comes after every other step that it reads within its scope. -/
theorem before_of_reads (hc : compile d n = .ok g) (h : Wired g w) (hb : (g.orders.get scope).hasBackEdges = false)
    (hr : g.ReadsWithin scope i j) : i = j ∨ w.Before scope j i := by
  obtain ⟨hi, hj, hr⟩ := hr
  have hpair := compile_pairwise hc scope hb
  rw [← h.order_eq] at hi hj hpair
  by_cases hij : i = j
  · exact .inl hij
  · refine .inr ((h.before_or_before hi hj hij).resolve_left fun hlt => ?_)
    exact hlt.of_pairwise hpair hij hr

/-- And after all that it reads through steps of the scope. -/
theorem before_of_transGen (hc : compile d n = .ok g) (h : Wired g w) (hb : (g.orders.get scope).hasBackEdges = false)
    (hr : Relation.TransGen (g.ReadsWithin scope) i j) : i = j ∨ w.Before scope j i := by
  induction hr with
  | single hr => exact before_of_reads hc h hb hr
  | tail _ hr ih =>
    rcases before_of_reads hc h hb hr with rfl | hlt
    · exact ih
    · rcases ih with rfl | hlt'
      · exact .inr hlt
      · exact .inr (hlt.trans hlt')

/-- Without a cycle, and with fields that lie apart, no step affects an earlier one. -/
theorem forward_of_acyclic (hc : compile d n = .ok g) (h : Wired g w)
    (hb : (g.orders.get scope).hasBackEdges = false) (hout : g.OutsApart scope) : w.Forward scope := by
  intro i hi
  obtain ⟨s, p, hs, hp⟩ := h.exists_out hi
  obtain ⟨l₁, l₂, hl⟩ := List.append_of_mem hi
  rw [h.out_eq hs]
  refine Bool.eq_false_iff.2 fun he => ?_
  obtain ⟨j, hj, t, k, q, ht, hk, hq, hov⟩ := (h.affectsEarlier_iff hl hp).1 he
  have hji : w.Before scope j i :=
    (List.pairwise_append.1 (hl ▸ h.before_pairwise scope)).2.2 j hj i List.mem_cons_self
  have hne : j ≠ i := fun e => absurd hji (e ▸ hji.asymm)
  have hpi : g.out? i = some p := out?_eq_some.2 ⟨s, hs, hp⟩
  rcases Step.mem_inputs.1 hk with hk | rfl
  · -- the earlier step would read the later one
    have hpair := compile_pairwise hc scope hb
    rw [← h.order_eq] at hpair
    exact hji.of_pairwise hpair hne ⟨t, k, q, p, ht, hk, hq, hpi, hov⟩
  · -- or write a field that overlaps
    unfold OutsApart at hout
    rw [← h.order_eq] at hout
    exact hji.of_pairwise hout q p (out?_eq_some.2 ⟨t, ht, hq⟩) hpi hov

/-- The name under which running a step is traced, if it has one. -/
def called (g : Graph) (i : StepId) : List String := ((g.body? i).bind Pass.traceName).toList

end Graph

/-! ## What a round leaves of the steps that it runs -/

namespace Pass

variable {f : Frame} {u : Bool} {l : List StepId} {r : Run} {i : StepId}

/-- Patches of steps, each of the step that made it and the field it writes. -/
def signed (ps : List Patch) : List (Option StepId × String) := ps.map fun p => (p.step, p.path)

/-- The signature of the patch of a step. -/
def sign (g : Graph) (i : StepId) : Option StepId × String := (some i, g.label i)

theorem step_calls (h : Wired f.graph f.wiring) (hi : i ∈ f.wiring.order f.scope) (r : Run) :
    (r.step f i).1.calls = r.calls ++ f.graph.called i := by
  obtain ⟨s, hs, -⟩ := h.mem_order.1 hi
  obtain ⟨body, hb⟩ := h.graph.exists_body hs
  unfold Run.step Graph.called
  simp only [hs, hb, Option.bind_some]
  split
  · rfl
  · split
    · simp only [Run.write]
      split <;> rfl
    · split <;> rfl

theorem Stepped.records (h : Wired f.graph f.wiring) {out : Run × Option Fault} (hst : Stepped f i r out) :
    ∃ new, out.1.patches = r.patches ++ new ∧ (signed new).Sublist [sign f.graph i] := by
  cases hst with
  | failed _ ht _ =>
    exact ⟨[], (congrArg Trail.patches ht).trans (List.append_nil _).symm, List.nil_sublist _⟩
  | settled _ ht _ _ =>
    exact ⟨[], (congrArg Trail.patches ht).trans (List.append_nil _).symm, List.nil_sublist _⟩
  | @wrote s out prev next r' hs _ _ ht _ _ =>
    refine ⟨[⟨s.label, patchReason s.kind, prev, some next, some s.id⟩], congrArg Trail.patches ht, ?_⟩
    simp only [signed, sign, List.map_cons, List.map_nil, h.graph.id_eq hs, Graph.label, hs, Option.map_some,
      Option.getD_some]
    exact List.Sublist.refl _

/-- A round calls the derive functions of the steps that it runs. -/
theorem round_calls (h : Wired f.graph f.wiring) (hl : ∀ j ∈ l, j ∈ f.wiring.order f.scope) (r : Run) :
    (round f u l r).1.calls = r.calls ++ (ranIn f u l r).flatMap f.graph.called := by
  refine round_induct (motive := fun _ r steps out => out.1.calls = r.calls ++ steps.flatMap f.graph.called)
    ?_ ?_ ?_ ?_ ?_ r
  · exact fun _ => (List.append_nil _).symm
  · exact fun _ _ _ _ _ _ _ ih => ih
  · exact fun _ _ _ _ => (List.append_nil _).symm
  · intro i _ r r' fault hi he
    have hcalls := step_calls h (hl i hi) r
    rw [he] at hcalls
    simpa using hcalls
  · intro i _ r r' steps out hi he ih
    have hcalls := step_calls h (hl i hi) r
    rw [he] at hcalls
    dsimp only at hcalls
    rw [ih, hcalls, List.flatMap_cons, List.append_assoc]

/-- Its patches are of steps that it runs, in their order. -/
theorem round_records (h : Wired f.graph f.wiring) (hl : ∀ j ∈ l, j ∈ f.wiring.order f.scope) (r : Run) :
    ∃ new, (round f u l r).1.patches = r.patches ++ new ∧
      (signed new).Sublist ((ranIn f u l r).map (sign f.graph)) := by
  refine round_induct (motive := fun _ r steps out => ∃ new, out.1.patches = r.patches ++ new ∧
    (signed new).Sublist (steps.map (sign f.graph))) ?_ ?_ ?_ ?_ ?_ r
  · exact fun _ => ⟨[], (List.append_nil _).symm, List.nil_sublist _⟩
  · exact fun _ _ _ _ _ _ _ ih => ih
  · exact fun _ _ _ _ => ⟨[], (List.append_nil _).symm, List.nil_sublist _⟩
  · intro i _ r r' fault hi he
    have hrec := (stepped (r := r) h (hl i hi)).records h
    rw [he] at hrec
    exact hrec
  · intro i _ r r' steps out hi he ih
    have hrec := (stepped (r := r) h (hl i hi)).records h
    rw [he] at hrec
    obtain ⟨new, hnew, hsub⟩ := hrec
    obtain ⟨more, hmore, hsub'⟩ := ih
    refine ⟨new ++ more, ?_, ?_⟩
    · dsimp only at hnew
      rw [hmore, hnew, List.append_assoc]
    · rw [signed, List.map_append, List.map_cons]
      exact hsub.append hsub'

/-- A round that its step cap stopped ran as many steps, and had some left. -/
theorem round_capped {rest : List StepId} (hs : (round f u l r).2 = some (.cap .cycleDetected rest)) :
    f.cap ≤ (round f u l r).1.executed ∧ rest ≠ [] := by
  fun_induction round f u l r with
  | case1 | case4 | case5 => cases hs
  | case2 _ _ _ _ ih | case6 _ _ _ _ _ _ _ _ ih => exact ih hs
  | case3 i l r _ hcap =>
    cases hs
    exact ⟨hcap, List.cons_ne_nil i l⟩

/-- So a cap of as many steps as it passes never stops it. -/
theorem round_not_capped (h : Wired f.graph f.wiring) (hl : ∀ j ∈ l, j ∈ f.wiring.order f.scope)
    (hcap : r.executed + l.length ≤ f.cap) (rest : List StepId) :
    (round f u l r).2 ≠ some (.cap .cycleDetected rest) := by
  intro hs
  obtain ⟨hle, hne⟩ := round_capped hs
  have hexec := round_executed h hl hs
  have hrest := List.length_pos_iff.2 hne
  omega

/-- Where no step affects an earlier one a sweep runs what its one round runs. -/
theorem ran_forward (h : Wired f.graph f.wiring) (hfw : f.wiring.Forward f.scope)
    (hl : ∀ j ∈ l, j ∈ f.wiring.order f.scope) (hnone : r.again = []) : ran f u l r = ranIn f u l r := by
  have hempty : { r with again := [] } = r := by rw [← hnone]
  have hagain := (round_again (u := u) h hfw hl r).trans hnone
  rw [ran_eq h hl, hempty]
  dsimp only
  rw [hagain, List.isEmpty_nil, Bool.or_true, if_pos rfl, List.append_nil]

end Pass

/-! ## Passes -/

namespace Executor

variable {e : Executor} {late : Nat → Bool} {ctx : Context} {req : Request} {d : Diagnostics}

/-- What a pass does that settles its scope in one ordered sweep. -/
structure Ordered (late : Nat → Bool) (e : Executor) (ctx : Context) (req : Request) (d : Diagnostics) : Prop where
  rounds : (e.passUnder late ctx req d).outcome.summary.rounds = 1
  once : (e.ran late ctx req).Nodup
  increasing : (e.ran late ctx req).Pairwise (e.wiring.Before req.scope)
  /-- A step runs after every other one that it reads, directly or through steps of the
  scope. -/
  reads : ∀ i ∈ e.ran late ctx req, ∀ j ∈ e.ran late ctx req, i ≠ j →
    Relation.TransGen (e.graph.ReadsWithin req.scope) i j → [j, i].Sublist (e.ran late ctx req)
  /-- Derive functions are called in the order of their steps. -/
  calls : (e.passUnder late ctx req d).calls = (e.ran late ctx req).flatMap e.graph.called
  /-- Patches are recorded in that order, one for a step and one for a field at most. -/
  patches : ∃ new, (e.passUnder late ctx req d).context.patches = ctx.patches ++ new ∧
    (Pass.signed new).Sublist ((e.ran late ctx req).map (Pass.sign e.graph)) ∧ (new.map (·.step)).Nodup ∧
    (new.map fun p => p.step.bind e.graph.out?).Nodup
  counted : (e.passUnder late ctx req d).outcome.summary.executedSteps = (e.ran late ctx req).length
  planned : (e.passUnder late ctx req d).outcome.summary.executedSteps
    ≤ (e.passUnder late ctx req d).outcome.summary.planLen
  within : (e.passUnder late ctx req d).outcome.summary.planLen ≤ e.wiring.scopeSize req.scope
  uncapped : req.config.stepCap = none →
    (e.passUnder late ctx req d).outcome.summary.degrade ≠ some .cycleDetected

/-- How the one sweep of a pass goes where no step affects an earlier one. -/
theorem sweep_of_forward (h : e.Sound) (hfw : e.wiring.Forward req.scope) (late : Nat → Bool) (ctx : Context) :
    e.sweep late ctx req =
    let out := Pass.round (frame late e req) ((e.choice ctx req).executed = .full) (e.choice ctx req).steps (e.start ctx req)
    ⟨out.1, out.2, 1, (e.choice ctx req).executed = .full⟩ :=
  Pass.rounds_forward (f := frame late e req) h.wired hfw (choice_mem h ctx req) rfl 1

/-- What such a pass runs is what its round runs. -/
theorem ran_of_forward (h : e.Sound) (hfw : e.wiring.Forward req.scope) (hidle : e.idle ctx req = false)
    (late : Nat → Bool) :
    e.ran late ctx req = Pass.ranIn (frame late e req) ((e.choice ctx req).executed = .full) (e.choice ctx req).steps
      (e.start ctx req) := by
  rw [ran, hidle, if_neg Bool.false_ne_true]
  exact Pass.ran_forward (f := frame late e req) h.wired hfw (choice_mem h ctx req) rfl

theorem passUnder_rounds (hidle : e.idle ctx req = false) :
    (e.passUnder late ctx req d).outcome.summary.rounds = (e.sweep late ctx req).rounds := by
  rw [passUnder_of_due d hidle]
  rfl

theorem passUnder_planLen (hidle : e.idle ctx req = false) :
    (e.passUnder late ctx req d).outcome.summary.planLen = (e.choice ctx req).steps.length := by
  rw [passUnder_of_due d hidle]
  rfl

theorem passUnder_calls (hidle : e.idle ctx req = false) :
    (e.passUnder late ctx req d).calls = (e.sweep late ctx req).run.calls := by
  rw [passUnder_of_due d hidle]
  rfl

/-- What a pass reports to have run tells whether it did anything. -/
theorem idle_of_noop (hran : (e.passUnder late ctx req d).outcome.summary.executed ≠ .noop) : e.idle ctx req = false := by
  refine Bool.eq_false_iff.2 fun hidle => hran ?_
  rw [passUnder_of_idle d hidle]
  rfl

/-- A pass that is not idle records the patches of its sweep, or none. -/
theorem passUnder_records (hidle : e.idle ctx req = false) (late : Nat → Bool) (d : Diagnostics) :
    (e.passUnder late ctx req d).context.patches = ctx.patches ∨
      (e.passUnder late ctx req d).context.patches = ctx.patches ++ (e.sweep late ctx req).run.patches := by
  rw [passUnder_of_due d hidle]
  dsimp only [close]
  split
  · exact .inl rfl
  · exact .inr rfl

theorem capped_of_degrade {stop : Option Pass.Stop} (h : stopDegrade stop = some .cycleDetected) :
    ∃ rest, stop = some (.cap .cycleDetected rest) := by
  match stop with
  | none => cases h
  | some (.cap reason rest) =>
    obtain rfl : reason = .cycleDetected := Option.some.inj h
    exact ⟨rest, rfl⟩
  | some (.failed _ _) => cases h

/-- Patches of different steps are of different fields. -/
theorem nodup_outs (h : e.Sound) {new : List Patch} {l : List StepId} (hl : l.Nodup)
    (hmem : ∀ i ∈ l, i ∈ e.wiring.order req.scope) (hsub : (Pass.signed new).Sublist (l.map (Pass.sign e.graph))) :
    (new.map (·.step)).Nodup ∧ (new.map fun p => p.step.bind e.graph.out?).Nodup := by
  have hsteps : (new.map (·.step)).Sublist (l.map some) := by
    have hfst := hsub.map Prod.fst
    simpa only [Pass.signed, List.map_map, Function.comp_def, Pass.sign] using hfst
  have hnodup : (new.map (·.step)).Nodup := (hl.map (Option.some_injective _)).sublist hsteps
  refine ⟨hnodup, ?_⟩
  have hmap : (new.map fun p => p.step.bind e.graph.out?) = (new.map (·.step)).map (·.bind e.graph.out?) := by
    rw [List.map_map]
    rfl
  rw [hmap]
  refine hnodup.map_on fun a ha b hb hab => ?_
  obtain ⟨i, hi, rfl⟩ := List.mem_map.1 (hsteps.subset ha)
  obtain ⟨j, hj, rfl⟩ := List.mem_map.1 (hsteps.subset hb)
  obtain ⟨s, p, hs, hp⟩ := h.wired.exists_out (hmem i hi)
  obtain ⟨t, q, ht, hq⟩ := h.wired.exists_out (hmem j hj)
  simp only [Option.bind_some, Graph.out?, hs, ht, hp, hq] at hab
  rw [h.wired.graph.out_inj hs ht (h.wired.graph.table.path?_inj hp (hab ▸ hq))]

/-- A pass that does anything settles a scope without a cycle, whose fields lie apart, in
one ordered sweep. -/
theorem acyclic_ordered {decl : Declaration} {c : Compiled} (hc : c.Of decl) (he : Reached c e)
    (hb : (c.graph.orders.get req.scope).hasBackEdges = false) (hout : c.graph.OutsApart req.scope)
    (hran : (e.passUnder late ctx req d).outcome.summary.executed ≠ .noop) : Ordered late e ctx req d := by
  have h := he.sound hc
  obtain ⟨n, hcompile⟩ := hc.graph
  rw [← he.same.1] at hcompile hb hout
  have hfw := Graph.forward_of_acyclic hcompile h.wired hb hout
  have hidle := idle_of_noop hran
  have hsweep := sweep_of_forward h hfw late ctx
  have hranIn := ran_of_forward h hfw hidle late
  have hplan : (e.ran late ctx req).Sublist (e.choice ctx req).steps := hranIn ▸ Pass.ranIn_sublist
  have horder := choice_order h ctx req
  have hsub := hplan.trans horder
  have hincreasing := (h.wired.before_pairwise req.scope).sublist hsub
  have hnodup : (e.ran late ctx req).Nodup := (h.wired.nodup_order req.scope).sublist hsub
  have hcounted := (@pass_counts e late ctx req d h).1
  refine
    { rounds := ?_, once := hnodup, increasing := hincreasing, reads := ?_, calls := ?_, patches := ?_
      counted := hcounted, planned := ?_, within := ?_, uncapped := ?_ }
  · rw [passUnder_rounds hidle, hsweep]
  · intro i hi j hj hne hr
    have hji := (Graph.before_of_transGen hcompile h.wired hb hr).resolve_left hne
    exact h.wired.pair_sublist hsub hi hj hji
  · have hcalls := Pass.round_calls (f := frame late e req) (u := (e.choice ctx req).executed = .full) h.wired
      (choice_mem h ctx req) (e.start ctx req)
    rw [passUnder_calls hidle, hsweep, hranIn]
    exact hcalls
  · obtain ⟨new, hnew, hsigned⟩ := Pass.round_records (f := frame late e req) (u := (e.choice ctx req).executed = .full)
      h.wired (choice_mem h ctx req) (e.start ctx req)
    rw [← hranIn] at hsigned
    rcases passUnder_records hidle late d with hp | hp
    · exact ⟨[], by rw [hp, List.append_nil], List.nil_sublist _, .nil, .nil⟩
    · rw [hsweep] at hp
      exact ⟨new, hp.trans (congrArg _ hnew), hsigned, nodup_outs h hnodup (fun i hi => hsub.subset hi) hsigned⟩
  · rw [hcounted, passUnder_planLen hidle]
    exact hplan.length_le
  · rw [passUnder_planLen hidle]
    exact horder.length_le
  · intro hcap hdegrade
    -- the default cap is a multiple of the number of steps
    have hle : (e.choice ctx req).steps.length ≤ (frame late e req).cap := by
      refine horder.length_le.trans ?_
      show e.wiring.scopeSize req.scope ≤ req.config.stepCapFor (e.wiring.scopeSize req.scope)
      rw [Policy.Convergence.stepCapFor, hcap, Option.getD_none]
      omega
    rw [passUnder_degrade hidle, hsweep] at hdegrade
    obtain ⟨rest, hstop⟩ := capped_of_degrade hdegrade
    exact Pass.round_not_capped (f := frame late e req) h.wired (choice_mem h ctx req) ((Nat.zero_add _).trans_le hle) rest
      hstop

end Executor

namespace Relay

theorem outsApart : graph.OutsApart .all := by
  refine List.pairwise_pair.2 fun p q hp hq => ?_
  cases hp
  cases hq
  decide

theorem moved_ordered :
    (executor.pass moved ⟨.all, config .dirty 9, none⟩ (.ofReporting .builtin false)).outcome.summary.executed ≠ .noop ∧
      executor.Ordered (fun _ => false) moved ⟨.all, config .dirty 9, none⟩ (.ofReporting .builtin false) := by
  have hran : (executor.passUnder (fun _ => false) moved ⟨.all, config .dirty 9, none⟩
      (.ofReporting .builtin false)).outcome.summary.executed ≠ .noop := by
    have hdirty : (executor.passUnder (fun _ => false) moved ⟨.all, config .dirty 9, none⟩
        (.ofReporting .builtin false)).outcome.summary.executed = .dirty := by cbv
    rw [hdirty]
    decide
  exact ⟨hran, Executor.acyclic_ordered compiled_of (.ofCompiled _) rfl outsApart hran⟩

end Relay

/-! ## A chain of reads that leaves its scope -/

namespace Detour

def a : Path := Relay.a

def b : Path := Relay.b

def c : Path := ⟨["c"], by decide⟩

def x : Path := Relay.x

/-- What reads a field under a name. -/
def reader (name : String) (p : Path) : Derive := .ofRun (some name) fun v => ⟨.ok ((State.read v p).getD .null), [p]⟩

/-- `a` reads the deferred `b`, and `b` copies `c`, which reads `x`. -/
def declaration : Declaration :=
  (Declaration.named "detour").group
    ((((Group.named "detour").field "a" (.computed ⟨["b"], reader "a" b, none, .immediate⟩)).field "b"
      (.link "c" .deferred)).field "c" (.computed ⟨["x"], reader "c" x, none, .immediate⟩))

def graph : Graph where
  moduleId := "detour"
  table := ⟨[a, b, c, x]⟩
  steps := [⟨0, .computed, 0, [1], none, .immediate, "a", "detour"⟩, ⟨1, .link, 1, [2], some 2, .deferred, "b", "detour"⟩,
    ⟨2, .computed, 2, [3], none, .immediate, "c", "detour"⟩]
  bodies := [.computed (reader "a" b) none, .link, .computed (reader "c" x) none]
  orders := ⟨⟨[2, 1, 0], []⟩, ⟨[0, 2], []⟩, ⟨[1], []⟩⟩
  levels := [[2], [1], [0]]
  reserved := []
  shapeWarnings := []
  generation := 1

def compiled : Compiled := ⟨graph, .ofGraph graph⟩

theorem compiled_of : compiled.Of declaration := by
  refine ⟨⟨1, ?_⟩, rfl⟩
  unfold compiled graph
  cbv

def executor : Executor := .ofCompiled ⟨"detour", "1"⟩ compiled

/-- Everything is dirty. -/
def context : Context := ⟨.obj [("a", .int 1), ("b", .int 1), ("c", .int 1), ("x", .int 2)], [], .ofPaths [b, x], 2⟩

def request : Executor.Request := ⟨.immediate, Relay.config .full 9, none⟩

/-- `a` reads `c` through `b`, both are of the immediate scope, and `a` runs first. -/
theorem reader_first :
    compiled.Of declaration ∧ (graph.orders.get .immediate).hasBackEdges = false ∧ graph.OutsApart .immediate ∧
      Relation.TransGen graph.Reads 0 2 ∧
      (executor.passUnder (fun _ => false) context request (.ofReporting .builtin false)).outcome.summary.executed ≠ .noop ∧
      executor.ran (fun _ => false) context request = [0, 2] ∧
      (executor.passUnder (fun _ => false) context request (.ofReporting .builtin false)).calls = ["a", "c"] := by
  refine ⟨compiled_of, rfl, ?_, ?_, ?_, ?_, ?_⟩
  · refine List.pairwise_pair.2 fun p q hp hq => ?_
    cases hp
    cases hq
    decide
  · refine .head (b := 1) ?_ (.single ?_)
    · exact ⟨_, 1, b, b, rfl, List.mem_cons_self, rfl, rfl, Path.overlaps_refl b⟩
    · exact ⟨_, 2, c, c, rfl, List.mem_cons_self, rfl, rfl, Path.overlaps_refl c⟩
  · have hfull : (executor.passUnder (fun _ => false) context request
        (.ofReporting .builtin false)).outcome.summary.executed = .full := by cbv
    rw [hfull]
    decide
  · cbv
  · cbv

end Detour

end Settle
