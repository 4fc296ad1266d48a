/-
  Settle.Proofs.Sorting — the order of a scope is a topological one (see
  `Settle.Graph.Compile`).

  Of the steps of a scope those that levels take come first, each after every other one
  of the scope that it reads (`Sorted.after`), and at its depth in the levels of all
  steps (`Leveled`). Those left over come last. Each of them reads another one of them,
  so following such reads comes to a cycle of them (`exists_cycle`); a step that levels
  take reads none of them, so what lies on a cycle or leads to one by reads of the scope
  is left over (`Sorted.cyclic`). The sort by counting (`Settle.Graph.Kahn`) ends with
  the same, whatever the declaration.
-/

import Settle.Proofs.Acyclic
import Settle.Proofs.Kahn

namespace Settle

/-! ## Cycles -/

/-- A chain of reads through two or more steps, all different, that returns to the
first. -/
structure Returns (R : StepId → StepId → Prop) (i : StepId) (l : List StepId) : Prop where
  nodup : (i :: l).Nodup
  more : l ≠ []
  chain : (i :: l ++ [i]).IsChain R

/-- Following a read from each step makes a cycle of the steps that are met again. -/
theorem returns_of_periodic {R : StepId → StepId → Prop} {next : StepId → StepId} {i : StepId}
    (hper : i ∈ Function.periodicPts next) (hne : next i ≠ i) (hread : ∀ n, R (next^[n] i) (next^[n + 1] i)) :
    ∃ l, Returns R i l := by
  have hpos := Function.minimalPeriod_pos_of_mem_periodicPts hper
  have hone : Function.minimalPeriod next i ≠ 1 := fun h => hne (Function.minimalPeriod_eq_one_iff_isFixedPt.1 h)
  have hback : next^[Function.minimalPeriod next i] i = i := Function.isPeriodicPt_minimalPeriod next i
  have hinj := Function.iterate_injOn_Iio_minimalPeriod (f := next) (x := i)
  generalize Function.minimalPeriod next i = p at hpos hone hback hinj
  obtain ⟨q, rfl⟩ : ∃ q, p = q + 1 := ⟨p - 1, by omega⟩
  have hlist : (List.range (q + 1)).map (fun n => next^[n] i) = i :: (List.range q).map fun n => next^[n + 1] i := by
    rw [List.range_succ_eq_map, List.map_cons, List.map_map]
    rfl
  refine ⟨(List.range q).map fun n => next^[n + 1] i, ?_, ?_, ?_⟩
  · rw [← hlist]
    refine List.nodup_range.map_on fun m hm n hn he => ?_
    exact hinj (Set.mem_Iio.2 (List.mem_range.1 hm)) (Set.mem_Iio.2 (List.mem_range.1 hn)) he
  · intro hnil
    simp only [List.map_eq_nil_iff, List.range_eq_nil] at hnil
    omega
  · have hclosed : i :: (List.range q).map (fun n => next^[n + 1] i) ++ [i] =
        (List.range (q + 1 + 1)).map fun n => next^[n] i := by
      rw [List.range_succ, List.map_append, hlist, List.map_singleton, hback]
    rw [hclosed, List.isChain_map, List.isChain_range_succ]
    exact fun n _ => hread n

/-- Where each of some steps reads another one of them, reads lead from each of them to a
cycle. -/
theorem exists_cycle {R : StepId → StepId → Prop} {c : List StepId} (h : ∀ i ∈ c, ∃ j ∈ c, j ≠ i ∧ R i j) {i : StepId}
    (hi : i ∈ c) : ∃ j l, Relation.ReflTransGen R i j ∧ Returns R j l := by
  -- follow one such read from each step
  choose! next hmem hne hread using h
  have hin : ∀ n, next^[n] i ∈ c := by
    intro n
    induction n with
    | zero => exact hi
    | succ n ih =>
      rw [Function.iterate_succ_apply']
      exact hmem _ ih
  have hpath : ∀ n, Relation.ReflTransGen R i (next^[n] i) := by
    intro n
    induction n with
    | zero => exact .refl
    | succ n ih =>
      rw [Function.iterate_succ_apply']
      exact ih.tail (hread _ (hin n))
  -- some step is met again
  obtain ⟨m, n, hlt, hmn⟩ : ∃ m n, m < n ∧ next^[m] i = next^[n] i := by
    obtain ⟨m, n, hmn, he⟩ := Finite.exists_ne_map_eq_of_infinite fun n => (⟨next^[n] i, hin n⟩ : {j // j ∈ c})
    have he : next^[m] i = next^[n] i := congrArg Subtype.val he
    rcases Nat.lt_or_gt_of_ne hmn with hlt | hlt
    · exact ⟨m, n, hlt, he⟩
    · exact ⟨n, m, hlt, he.symm⟩
  have hper : next^[m] i ∈ Function.periodicPts next := by
    refine ⟨n - m, Nat.sub_pos_of_lt hlt, ?_⟩
    rw [Function.IsPeriodicPt, Function.IsFixedPt, ← Function.iterate_add_apply,
      Nat.sub_add_cancel (Nat.le_of_lt hlt), hmn]
  have hreads : ∀ k, R (next^[k] (next^[m] i)) (next^[k + 1] (next^[m] i)) := by
    intro k
    rw [Function.iterate_succ_apply', ← Function.iterate_add_apply]
    exact hread _ (hin _)
  obtain ⟨l, hl⟩ := returns_of_periodic hper (hne _ (hin m)) hreads
  exact ⟨_, l, hpath m, hl⟩

section

variable {R : StepId → StepId → Prop} {P : StepId → Prop} {rank : StepId → Nat}
  (hrank : ∀ a b, P a → R a b → a ≠ b → P b ∧ rank b < rank a)

include hrank

theorem ranked_of_chain {i : StepId} {l : List StepId} (hnd : (i :: l).Nodup) (hchain : (i :: l).IsChain R) (hi : P i) :
    ∀ j ∈ l, P j ∧ rank j < rank i := by
  induction l generalizing i with
  | nil => nofun
  | cons k l ih =>
    obtain ⟨hik, hchain⟩ := List.isChain_cons_cons.1 hchain
    obtain ⟨hout, hnd⟩ := List.nodup_cons.1 hnd
    obtain ⟨hk, hlt⟩ := hrank i k hi hik fun e => hout (e ▸ List.mem_cons_self)
    intro j hj
    rcases List.mem_cons.1 hj with rfl | hj
    · exact ⟨hk, hlt⟩
    · obtain ⟨hj, hlt'⟩ := ih hnd hchain hk j hj
      exact ⟨hj, Nat.lt_trans hlt' hlt⟩

/-- Where a step of a kind reads only steps of the kind that are less deep, none of them
is on a cycle. -/
theorem Returns.not_ranked {i : StepId} {l : List StepId} (h : Returns R i l) : ¬ P i := by
  intro hi
  obtain ⟨hchain, -, hclose⟩ := List.isChain_append.1 h.chain
  have hlast : l.getLast h.more ∈ l := List.getLast_mem h.more
  obtain ⟨hp, hlt⟩ := ranked_of_chain hrank h.nodup hchain hi _ hlast
  have hread : R (l.getLast h.more) i := by
    refine hclose _ ?_ i rfl
    rw [List.getLast?_cons_of_ne_nil h.more, List.getLast?_eq_some_getLast h.more]
    rfl
  have hne : l.getLast h.more ≠ i := fun e => (List.nodup_cons.1 h.nodup).1 (e ▸ hlast)
  exact Nat.lt_asymm hlt (hrank _ i hp hread hne).2

end

/-- Of two elements of a list that a relation holds of one way round only, the order tells
which comes first. -/
theorem idxOf_lt_of_pairwise {R : StepId → StepId → Prop} {l : List StepId} (hp : l.Pairwise R) {i j : StepId}
    (hi : i ∈ l) (hj : j ∈ l) (hne : i ≠ j) (hno : ¬ R i j) : l.idxOf j < l.idxOf i := by
  have hi' := List.idxOf_lt_length_of_mem hi
  have hj' := List.idxOf_lt_length_of_mem hj
  rcases Nat.lt_trichotomy (l.idxOf i) (l.idxOf j) with hlt | heq | hlt
  · have hr := List.pairwise_iff_getElem.1 hp _ _ hi' hj' hlt
    rw [List.getElem_idxOf hi', List.getElem_idxOf hj'] at hr
    exact absurd hr hno
  · refine absurd ?_ hne
    rw [← List.getElem_idxOf hi', ← List.getElem_idxOf hj']
    exact getElem_congr_idx heq
  · exact hlt

namespace Graph

/-- What the order of a scope is. -/
structure Sorted (g : Graph) (scope : Scope) : Prop where
  /-- It lists each step of the scope, once. -/
  once : (g.orders.get scope).order.Nodup
  mem_iff : ∀ i, i ∈ (g.orders.get scope).order ↔ ∃ s, g.step? i = some s ∧ scope.includes s.scheduling = true
  /-- What a cycle keeps comes last, in id order. -/
  last : ∃ taken, (g.orders.get scope).order = taken ++ (g.orders.get scope).cyclic
  increasing : (g.orders.get scope).cyclic.Pairwise (· < ·)
  /-- It is what lies on a cycle of steps of the scope, or leads to one by what they read. -/
  cyclic : ∀ i, i ∈ (g.orders.get scope).cyclic ↔
    ∃ j l, Relation.ReflTransGen (g.ReadsWithin scope) i j ∧ Returns (g.ReadsWithin scope) j l
  /-- Any other step comes after every other one of the scope that it reads. -/
  after : ∀ i j, i ∉ (g.orders.get scope).cyclic → g.ReadsWithin scope i j → i ≠ j →
    (g.orders.get scope).order.idxOf j < (g.orders.get scope).order.idxOf i
  /-- Counting what steps wait for comes to the same and never lowers a count that is
  nothing. -/
  counted : ∃ levels, Kahn.sort g.table g.steps scope = some (levels, (g.orders.get scope).cyclic) ∧
    (g.orders.get scope).order = levels.flatten ++ (g.orders.get scope).cyclic

/-- What the levels of all steps are. -/
structure Leveled (g : Graph) : Prop where
  /-- They take the steps that no cycle keeps. -/
  order : g.orders.all.order = g.levels.flatten ++ g.orders.all.cyclic
  /-- What a step reads of others is taken before its level, -/
  before : ∀ (k : Nat) level i j, g.levels[k]? = some level → i ∈ level → g.Reads i j → i ≠ j →
    ∃ (m : Nat) (level' : List StepId), m < k ∧ g.levels[m]? = some level' ∧ j ∈ level'
  /-- and some of it just before, unless the level is the first. -/
  previous : ∀ (k : Nat) level i, g.levels[k + 1]? = some level → i ∈ level →
    ∃ level' j, g.levels[k]? = some level' ∧ j ∈ level' ∧ i ≠ j ∧ g.Reads i j
  apart : ∀ level ∈ g.levels, ∀ i ∈ level, ∀ j ∈ level, i ≠ j → ¬ g.Reads i j
  counted : Kahn.sort g.table g.steps .all = some (g.levels, g.orders.all.cyclic)

/-- The steps of a scope. -/
def members (g : Graph) (scope : Scope) : List Step := g.steps.filter fun s => scope.includes s.scheduling

variable {d : Declaration} {n : Nat} {g : Graph} {scope : Scope} {i j : StepId} {s t : Step}

theorem WellFormed.step?_of_mem (h : g.WellFormed) (hs : s ∈ g.members scope) : g.step? s.id = some s := by
  obtain ⟨k, hk⟩ := List.mem_iff_getElem?.1 (List.mem_filter.1 hs).1
  rw [h.id_eq hk]
  exact hk

/-- The reads that levels go by are those of other steps. -/
theorem WellFormed.reads_iff (h : g.WellFormed) (hs : g.step? i = some s) (ht : g.step? j = some t) :
    s.reads g.table t = true ↔ i ≠ j ∧ g.Reads i j := by
  obtain ⟨o, ho, -⟩ := h.out ht
  simp only [Step.reads, Bool.and_eq_true, bne_iff_ne, h.id_eq hs, h.id_eq ht, List.any_eq_true]
  refine and_congr ne_comm ?_
  constructor
  · rintro ⟨k, hk, hov⟩
    obtain ⟨q, hq⟩ := PathTable.exists_path? (h.dep hs hk)
    rw [PathTable.overlap_iff ho hq, Path.overlaps_comm] at hov
    exact ⟨s, k, q, o, hs, hk, hq, out?_eq_some.2 ⟨t, ht, ho⟩, hov⟩
  · rintro ⟨s', k, q, o', hs', hk, hq, ho', hov⟩
    cases hs.symm.trans hs'
    obtain ⟨t', ht', ho'⟩ := out?_eq_some.1 ho'
    cases ht.symm.trans ht'
    refine ⟨k, hk, ?_⟩
    rw [PathTable.overlap_iff ho' hq, Path.overlaps_comm]
    exact hov

section

variable (hc : compile d n = .ok g)

include hc

theorem numbered : Kahn.Numbered g.steps := fun _ _ hs => (compile_wellFormed hc).id_eq hs

theorem cyclic_eq (scope : Scope) :
    (g.orders.get scope).cyclic = (Order.levels g.table (g.members scope)).2.map (·.id) := by
  obtain ⟨o, -, -, -, -, horders⟩ := compile_eq_ok hc
  rw [horders]
  rfl

theorem order_eq (scope : Scope) : (g.orders.get scope).order =
    (Order.levels g.table (g.members scope)).1.flatten.map (·.id) ++ (g.orders.get scope).cyclic := by
  obtain ⟨o, -, -, -, -, horders⟩ := compile_eq_ok hc
  rw [horders, List.map_flatten]
  rfl

theorem mem_order_of_cyclic (hi : i ∈ (g.orders.get scope).cyclic) : i ∈ (g.orders.get scope).order := by
  rw [order_eq hc]
  exact List.mem_append_right _ hi

/-- Each step left over reads another one. -/
theorem exists_read_cyclic (hi : i ∈ (g.orders.get scope).cyclic) :
    ∃ j ∈ (g.orders.get scope).cyclic, j ≠ i ∧ g.ReadsWithin scope i j := by
  have hwf := compile_wellFormed hc
  have hin := mem_order_of_cyclic hc hi
  rw [cyclic_eq hc] at hi
  obtain ⟨s, hs, rfl⟩ := List.mem_map.1 hi
  obtain ⟨t, ht, hr⟩ := Order.exists_read_left hs
  have hsub := Order.left_sublist g.table (g.members scope)
  obtain ⟨hne, hread⟩ := (hwf.reads_iff (hwf.step?_of_mem (hsub.subset hs)) (hwf.step?_of_mem (hsub.subset ht))).1 hr
  have hj : t.id ∈ (g.orders.get scope).cyclic := by
    rw [cyclic_eq hc]
    exact List.mem_map_of_mem ht
  exact ⟨t.id, hj, hne.symm, hin, mem_order_of_cyclic hc hj, hread⟩

/-- Of the order no step but one left over reads a later one. -/
theorem order_pairwise (scope : Scope) : (g.orders.get scope).order.Pairwise fun i j =>
    i ∉ (g.orders.get scope).cyclic → i ≠ j → ¬ g.Reads i j := by
  have hwf := compile_wellFormed hc
  have hleft := Order.left_sublist g.table (g.members scope)
  rw [order_eq hc, List.pairwise_append]
  refine ⟨?_, ?_, ?_⟩
  · refine List.pairwise_map.2 ((levels_pairwise g.table (g.members scope)).imp_of_mem fun hs ht hno _ hne hr => ?_)
    have hread := (hwf.reads_iff (hwf.step?_of_mem (Order.mem_of_mem_levels hs))
      (hwf.step?_of_mem (Order.mem_of_mem_levels ht))).2 ⟨hne, hr⟩
    rw [hno] at hread
    cases hread
  · exact List.pairwise_of_forall_mem_list fun i hi j _ hno => absurd hi hno
  · intro i hi j hj _ hne hr
    rw [cyclic_eq hc] at hj
    obtain ⟨s, hs, rfl⟩ := List.mem_map.1 hi
    obtain ⟨t, ht, rfl⟩ := List.mem_map.1 hj
    have hread := (hwf.reads_iff (hwf.step?_of_mem (Order.mem_of_mem_levels hs))
      (hwf.step?_of_mem (hleft.subset ht))).2 ⟨hne, hr⟩
    rw [Order.not_reads_left hs ht] at hread
    cases hread

/-- A step that levels take reads none left over. -/
theorem not_cyclic_of_reads (hi : i ∉ (g.orders.get scope).cyclic) (hr : g.ReadsWithin scope i j) :
    j ∉ (g.orders.get scope).cyclic := by
  intro hj
  obtain ⟨hin, -, hr⟩ := hr
  have hp := order_pairwise hc scope
  rw [order_eq hc] at hin hp
  have hi' := (List.mem_append.1 hin).resolve_right hi
  exact (List.pairwise_append.1 hp).2.2 i hi' j hj hi (fun e => hi (e ▸ hj)) hr

theorem after_of_reads (hi : i ∉ (g.orders.get scope).cyclic) (hr : g.ReadsWithin scope i j) (hne : i ≠ j) :
    (g.orders.get scope).order.idxOf j < (g.orders.get scope).order.idxOf i :=
  idxOf_lt_of_pairwise (order_pairwise hc scope) hr.1 hr.2.1 hne fun h => h hi hne hr.2.2

/-- What is left over is what lies on a cycle or leads to one. -/
theorem mem_cyclic_iff : i ∈ (g.orders.get scope).cyclic ↔
    ∃ j l, Relation.ReflTransGen (g.ReadsWithin scope) i j ∧ Returns (g.ReadsWithin scope) j l := by
  constructor
  · exact fun hi => exists_cycle (fun k hk => exists_read_cyclic hc hk) hi
  · intro ⟨j, l, hpath, hcycle⟩
    have hj : j ∈ (g.orders.get scope).cyclic := by
      by_contra hno
      exact hcycle.not_ranked (fun a b ha hab hne => ⟨not_cyclic_of_reads hc ha hab, after_of_reads hc ha hab hne⟩) hno
    induction hpath using Relation.ReflTransGen.head_induction_on with
    | refl => exact hj
    | head hab _ ih =>
      by_contra hno
      exact not_cyclic_of_reads hc hno hab ih

theorem sort_eq (scope : Scope) : Kahn.sort g.table g.steps scope =
    some ((Order.levels g.table (g.members scope)).1.map (·.map (·.id)), (g.orders.get scope).cyclic) := by
  rw [Kahn.sort_eq (numbered hc), cyclic_eq hc]
  rfl

theorem sorted (scope : Scope) : g.Sorted scope where
  once := (compile_wellFormed hc).nodup scope
  mem_iff := fun _ => (compile_wellFormed hc).mem_order
  last := ⟨_, order_eq hc scope⟩
  increasing := by
    rw [cyclic_eq hc, List.pairwise_map]
    exact ((Kahn.increasing (numbered hc)).sublist List.filter_sublist).sublist (Order.left_sublist _ _)
  cyclic := fun _ => mem_cyclic_iff hc
  after := fun _ _ => after_of_reads hc
  counted := ⟨_, sort_eq hc scope, by rw [← List.map_flatten]; exact order_eq hc scope⟩

theorem levels_eq : g.levels = (Order.levels g.table (g.members .all)).1.map (·.map (·.id)) := by
  obtain ⟨o, -, -, -, -, -, hlevels, -⟩ := compile_checks hc
  exact hlevels

/-- A step of a level is that of a compiled one. -/
theorem exists_of_level {k : Nat} {level : List StepId} (hk : g.levels[k]? = some level) (hi : i ∈ level) :
    ∃ steps s, (Order.levels g.table (g.members .all)).1[k]? = some steps ∧ s ∈ steps ∧ g.step? i = some s := by
  rw [levels_eq hc, List.getElem?_map] at hk
  obtain ⟨steps, hsteps, rfl⟩ := Option.map_eq_some_iff.1 hk
  obtain ⟨s, hs, rfl⟩ := List.mem_map.1 hi
  have hmem : s ∈ g.members .all :=
    Order.mem_of_mem_levels (List.mem_flatten.2 ⟨steps, List.mem_of_getElem? hsteps, hs⟩)
  exact ⟨steps, s, hsteps, hs, (compile_wellFormed hc).step?_of_mem hmem⟩

theorem before_level {k : Nat} {level : List StepId} (hk : g.levels[k]? = some level) (hi : i ∈ level) (hr : g.Reads i j)
    (hne : i ≠ j) : ∃ (m : Nat) (level' : List StepId), m < k ∧ g.levels[m]? = some level' ∧ j ∈ level' := by
  have hwf := compile_wellFormed hc
  obtain ⟨steps, s, hsteps, hs, hat⟩ := exists_of_level hc hk hi
  obtain ⟨-, -, -, o, -, -, -, ho, -⟩ := id hr
  obtain ⟨t, ht, -⟩ := out?_eq_some.1 ho
  have hmem : t ∈ g.members .all := List.mem_filter.2 ⟨List.mem_of_getElem? ht, rfl⟩
  obtain ⟨m, before, hm, hbefore, htm⟩ := Order.reads_before hsteps hs hmem ((hwf.reads_iff hat ht).2 ⟨hne, hr⟩)
  refine ⟨m, before.map (·.id), hm, ?_, hwf.id_eq ht ▸ List.mem_map_of_mem htm⟩
  rw [levels_eq hc, List.getElem?_map, hbefore, Option.map_some]

theorem previous_level {k : Nat} {level : List StepId} (hk : g.levels[k + 1]? = some level) (hi : i ∈ level) :
    ∃ level' j, g.levels[k]? = some level' ∧ j ∈ level' ∧ i ≠ j ∧ g.Reads i j := by
  have hwf := compile_wellFormed hc
  obtain ⟨steps, s, hsteps, hs, hat⟩ := exists_of_level hc hk hi
  obtain ⟨before, t, hbefore, ht, hr⟩ := Order.reads_previous hsteps hs
  have hmem : t ∈ g.members .all :=
    Order.mem_of_mem_levels (List.mem_flatten.2 ⟨before, List.mem_of_getElem? hbefore, ht⟩)
  have hlevel : g.levels[k]? = some (before.map (·.id)) := by
    rw [levels_eq hc, List.getElem?_map, hbefore, Option.map_some]
  exact ⟨_, t.id, hlevel, List.mem_map_of_mem ht, (hwf.reads_iff hat (hwf.step?_of_mem hmem)).1 hr⟩

theorem not_reads_level {level : List StepId} (hlevel : level ∈ g.levels) (hi : i ∈ level) (hj : j ∈ level)
    (hne : i ≠ j) : ¬ g.Reads i j := by
  intro hr
  obtain ⟨k, hk⟩ := List.mem_iff_getElem?.1 hlevel
  obtain ⟨steps, s, hsteps, hs, hati⟩ := exists_of_level hc hk hi
  obtain ⟨steps', t, hsteps', ht, hatj⟩ := exists_of_level hc hk hj
  obtain rfl := Option.some.inj (hsteps.symm.trans hsteps')
  have hread := ((compile_wellFormed hc).reads_iff hati hatj).2 ⟨hne, hr⟩
  rw [Order.not_reads_level (List.mem_of_getElem? hsteps) hs ht] at hread
  cases hread

theorem leveled : g.Leveled where
  order := by
    rw [levels_eq hc, ← List.map_flatten]
    exact order_eq hc .all
  before := fun _ _ _ _ => before_level hc
  previous := fun _ _ _ => previous_level hc
  apart := fun _ hlevel _ hi _ hj => not_reads_level hc hlevel hi hj
  counted := by
    rw [levels_eq hc]
    exact sort_eq hc .all

end

/-- Every scope of a graph that compiles is sorted, and its levels are depths. -/
theorem compile_sorted (hc : compile d n = .ok g) : (∀ scope, g.Sorted scope) ∧ g.Leveled :=
  ⟨sorted hc, leveled hc⟩

end Graph

/-! ## A cycle and what reads it -/

namespace Knot

def p : Path := ⟨["p"], by decide⟩

def q : Path := ⟨["q"], by decide⟩

def r : Path := ⟨["r"], by decide⟩

def s : Path := ⟨["s"], by decide⟩

def x : Path := Relay.x

def derive : Derive := .ofRun none fun v => ⟨.ok ((State.read v x).getD .null), [x]⟩

/-- `p` and `q` read each other, `r` reads `q` and `s`, and `s` reads `x`. -/
def declaration : Declaration :=
  (Declaration.named "knot").group
    (((((Group.named "knot").field "p" (.computed ⟨["q"], derive, none, .deferred⟩)).field "q"
      (.computed ⟨["p"], derive, none, .deferred⟩)).field "r" (.computed ⟨["q", "s"], derive, none, .deferred⟩)).field "s"
      (.computed ⟨["x"], derive, none, .immediate⟩))

def graph : Graph where
  moduleId := "knot"
  table := ⟨[p, q, r, s, x]⟩
  steps := [⟨0, .computed, 0, [1], none, .deferred, "p", "knot"⟩, ⟨1, .computed, 1, [0], none, .deferred, "q", "knot"⟩,
    ⟨2, .computed, 2, [1, 3], none, .deferred, "r", "knot"⟩, ⟨3, .computed, 3, [4], none, .immediate, "s", "knot"⟩]
  bodies := [.computed derive none, .computed derive none, .computed derive none, .computed derive none]
  orders := ⟨⟨[3, 0, 1, 2], [0, 1, 2]⟩, ⟨[3], []⟩, ⟨[0, 1, 2], [0, 1, 2]⟩⟩
  levels := [[3]]
  reserved := []
  shapeWarnings := []
  generation := 1

theorem compile_eq : Graph.compile declaration 1 = .ok graph := by
  unfold graph
  cbv

theorem compile_knot_sorted : Graph.compile declaration 1 = .ok graph ∧ (∀ scope, graph.Sorted scope) ∧ graph.Leveled :=
  ⟨compile_eq, Graph.compile_sorted compile_eq⟩

end Knot

end Settle
