/-
  Settle.Proofs.Wiring — the tables of a graph tell overlap (see `Settle.Plan.Wiring`).

  A change at a path may move the steps that depend on or write a path overlapping it
  (`Graph.Moves`). The triggers of an id are exactly the steps a change of its path may
  move (`mem_affected`), and a step is touched by marks exactly when a marked path may
  move it (`touchesStep_iff`): in general by ancestors on both sides, and where paths
  have one segment by equality alone.
-/

import Settle.Plan.Wiring
import Settle.Proofs.BitSet
import Settle.Proofs.Graph

namespace Settle

/-- A change at the path may move the step: an input of it overlaps the path. -/
def Graph.Moves (g : Graph) (p : Path) (i : StepId) : Prop :=
  ∃ s d q, g.step? i = some s ∧ d ∈ s.inputs ∧ g.table.path? d = some q ∧ q.overlaps p

/-- A change may move the steps that write or depend on a path overlapping it. -/
theorem Graph.moves_iff {g : Graph} {p : Path} {i : StepId} : g.Moves p i ↔ ∃ s q, g.step? i = some s ∧
    (g.table.path? s.out = some q ∨ ∃ dep ∈ s.deps, g.table.path? dep = some q) ∧ q.overlaps p = true := by
  constructor
  · rintro ⟨s, input, q, hs, hin, hq, ho⟩
    rcases Step.mem_inputs.1 hin with hdep | rfl
    · exact ⟨s, q, hs, .inr ⟨input, hdep, hq⟩, ho⟩
    · exact ⟨s, q, hs, .inl hq, ho⟩
  · rintro ⟨s, q, hs, hq | ⟨dep, hdep, hq⟩, ho⟩
    · exact ⟨s, s.out, q, hs, Step.mem_inputs.2 (.inr rfl), hq, ho⟩
    · exact ⟨s, dep, q, hs, Step.mem_inputs.2 (.inl hdep), hq, ho⟩

/-- A well-formed graph and its tables. -/
structure Wired (g : Graph) (w : Wiring) : Prop where
  graph : g.WellFormed
  wiring : w = .ofGraph g

namespace Wired

variable {g : Graph} {w : Wiring}

theorem mem_order (h : Wired g w) {scope : Scope} {i : StepId} :
    i ∈ w.order scope ↔ ∃ s, g.step? i = some s ∧ scope.includes s.scheduling := by
  obtain ⟨hg, rfl⟩ := h
  rw [← hg.mem_order]
  simp [Wiring.order, Wiring.ofGraph]

/-- A step of the scope writes a field. -/
theorem exists_out (h : Wired g w) {scope : Scope} {i : StepId} (hi : i ∈ w.order scope) :
    ∃ s p, g.step? i = some s ∧ g.table.path? s.out = some p := by
  obtain ⟨s, hs, -⟩ := h.mem_order.1 hi
  obtain ⟨p, hp, -⟩ := h.graph.out hs
  exact ⟨s, p, hs, hp⟩

theorem nodup_order (h : Wired g w) (scope : Scope) : (w.order scope).Nodup := by
  obtain ⟨hg, rfl⟩ := h
  simpa [Wiring.order, Wiring.ofGraph] using hg.nodup scope

theorem inScope_iff {scope : Scope} {i : StepId} : w.inScope scope i = true ↔ i ∈ w.order scope := by
  simp [Wiring.inScope]

theorem out_eq (h : Wired g w) {i : StepId} {s : Step} (hs : g.step? i = some s) : w.out i = s.out := by
  obtain ⟨-, rfl⟩ := h
  have hs : g.steps[i]? = some s := hs
  simp [Wiring.out, Wiring.ofGraph, List.getD_eq_getElem?_getD, hs]

theorem inputsOf_eq (h : Wired g w) {i : StepId} {s : Step} (hs : g.step? i = some s) : w.inputsOf i = s.inputs := by
  obtain ⟨-, rfl⟩ := h
  have hs : g.steps[i]? = some s := hs
  simp [Wiring.inputsOf, Wiring.ofGraph, List.getD_eq_getElem?_getD, hs]

theorem inputsOf_of_none (h : Wired g w) {i : StepId} (hs : g.step? i = none) : w.inputsOf i = [] := by
  obtain ⟨-, rfl⟩ := h
  have hs : g.steps[i]? = none := hs
  simp [Wiring.inputsOf, Wiring.ofGraph, List.getD_eq_getElem?_getD, hs]

theorem pathCount_eq (h : Wired g w) : w.pathCount = g.table.size := by rw [h.wiring]; rfl

theorem shallow_iff (h : Wired g w) : w.shallow = true ↔ g.table.depth ≤ 1 := by rw [h.wiring]; exact decide_eq_true_iff

theorem getD_map_range {α : Type} (f : Nat → List α) {n i : Nat} (hi : i < n) :
    ((List.range n).map f).getD i [] = f i := by
  simp [List.getD_eq_getElem?_getD, hi]

theorem chain_eq (h : Wired g w) {i : PathId} (hi : i < g.table.size) : w.chain i = g.table.chain i := by
  rw [h.wiring]
  exact getD_map_range _ hi

/-- Every input of a step is a path of the table. -/
theorem input_path (h : Wired g w) {i : StepId} {s : Step} (hs : g.step? i = some s) {d : PathId} (hd : d ∈ s.inputs) :
    ∃ q, g.table.path? d = some q := by
  rcases Step.mem_inputs.1 hd with hd | rfl
  · exact PathTable.exists_path? (h.graph.dep hs hd)
  · obtain ⟨q, hq, -⟩ := h.graph.out hs
    exact ⟨q, hq⟩

/-- The ancestors of an id are the ids whose paths cover its own. -/
theorem mem_chain (h : Wired g w) {i j : PathId} {p : Path} (hi : g.table.path? i = some p) :
    j ∈ w.chain i ↔ ∃ q, g.table.path? j = some q ∧ q.covers p := by
  rw [h.chain_eq (PathTable.lt_size hi), h.graph.table.mem_chain hi]

/-! ## Triggers -/

/-- The triggers of an id are the steps that a change of its path may move. -/
theorem mem_affected (h : Wired g w) {k : PathId} {p : Path} (hk : g.table.path? k = some p) {i : StepId} :
    i ∈ w.affected k ↔ g.Moves p i := by
  have hlt := PathTable.lt_size hk
  have hexact : ∀ a, a < g.table.size → w.exact.getD a [] = g.exact a := fun a ha => by
    rw [h.wiring]
    exact getD_map_range _ ha
  have hunder : w.under.getD k [] = g.under k := by
    rw [h.wiring]
    exact getD_map_range _ hlt
  have hmem : ∀ s : Step, s ∈ g.steps ↔ g.step? s.id = some s := fun s => by
    constructor
    · intro hs
      obtain ⟨j, hj⟩ := List.mem_iff_getElem?.1 hs
      rw [h.graph.id_eq hj]
      exact hj
    · exact List.mem_of_getElem?
  rw [Wiring.affected, List.mem_append, List.mem_flatMap, hunder, Graph.under, List.mem_map]
  constructor
  · intro hcase
    rcases hcase with ⟨a, ha, hi⟩ | ⟨s, hs, rfl⟩
    · obtain ⟨q, hq, hqp⟩ := (h.mem_chain hk).1 ha
      rw [hexact a (PathTable.lt_size hq), Graph.exact, List.mem_map] at hi
      obtain ⟨s, hs, rfl⟩ := hi
      obtain ⟨hs, hin⟩ := List.mem_filter.1 hs
      exact ⟨s, a, q, (hmem s).1 hs, List.contains_iff_mem.1 hin, hq, Path.overlaps_iff.2 (.inl hqp)⟩
    · obtain ⟨hs, hin⟩ := List.mem_filter.1 hs
      obtain ⟨d, hd, hc⟩ := List.any_eq_true.1 hin
      obtain ⟨q, hq⟩ := h.input_path ((hmem s).1 hs) hd
      obtain ⟨p', hp', hpq⟩ := (h.graph.table.mem_chain hq).1 (List.contains_iff_mem.1 hc)
      obtain rfl : p = p' := Option.some.inj (hk.symm.trans hp')
      exact ⟨s, d, q, (hmem s).1 hs, hd, hq, Path.overlaps_iff.2 (.inr hpq)⟩
  · intro ⟨s, d, q, hs, hd, hq, ho⟩
    obtain rfl := h.graph.id_eq hs
    rcases Path.overlaps_iff.1 ho with hqp | hpq
    · left
      refine ⟨d, (h.mem_chain hk).2 ⟨q, hq, hqp⟩, ?_⟩
      rw [hexact d (PathTable.lt_size hq), Graph.exact, List.mem_map]
      exact ⟨s, List.mem_filter.2 ⟨(hmem s).2 hs, List.contains_iff_mem.2 hd⟩, rfl⟩
    · right
      refine ⟨s, List.mem_filter.2 ⟨(hmem s).2 hs, List.any_eq_true.2 ⟨d, hd, ?_⟩⟩, rfl⟩
      exact List.contains_iff_mem.2 ((h.graph.table.mem_chain hq).2 ⟨p, hk, hpq⟩)

theorem idxOf?_append_cons {l₁ l₂ : List StepId} {i : StepId} (hi : i ∉ l₁) :
    (l₁ ++ i :: l₂).idxOf? i = some l₁.length :=
  List.idxOf?_eq_some_iff.2 ⟨by simp, by simp, fun j hj e => by
    rw [List.getElem_append_left hj] at e
    exact hi (e ▸ List.getElem_mem hj)⟩

theorem idxOf?_lt_iff (l₁ l₂ : List StepId) {j : StepId} :
    (∃ n, (l₁ ++ l₂).idxOf? j = some n ∧ n < l₁.length) ↔ j ∈ l₁ := by
  constructor
  · intro ⟨n, hn, hlt⟩
    obtain ⟨_, he, -⟩ := List.idxOf?_eq_some_iff.1 hn
    rw [List.getElem_append_left hlt] at he
    exact he ▸ List.getElem_mem hlt
  · intro hj
    obtain ⟨n, hn⟩ := Option.isSome_iff_exists.1 (List.isSome_idxOf?.2 hj)
    obtain ⟨hlt, he, hfirst⟩ := List.idxOf?_eq_some_iff.1 hn
    refine ⟨n, List.idxOf?_eq_some_iff.2 ⟨by simp; omega, ?_, fun k hk => ?_⟩, hlt⟩
    · rw [List.getElem_append_left hlt, he]
    · rw [List.getElem_append_left (Nat.lt_trans hk hlt)]
      exact hfirst k hk

/-- A field written by a step affects an earlier one when it may move a step before it. -/
theorem affectsEarlier_iff (h : Wired g w) {scope : Scope} {l₁ l₂ : List StepId} {i : StepId}
    (hl : w.order scope = l₁ ++ i :: l₂) {k : PathId} {p : Path} (hk : g.table.path? k = some p) :
    w.affectsEarlier scope k i = true ↔ ∃ j ∈ l₁, g.Moves p j := by
  have hnd := h.nodup_order scope
  rw [hl] at hnd
  have hi : i ∉ l₁ := fun hm => (List.nodup_append.1 hnd).2.2 i hm i List.mem_cons_self rfl
  have hpos : w.position scope i = some l₁.length := by rw [Wiring.position, hl, idxOf?_append_cons hi]
  have hbefore : ∀ j, (∃ n, w.position scope j = some n ∧ n < l₁.length) ↔ j ∈ l₁ := fun j => by
    rw [← idxOf?_lt_iff l₁ (i :: l₂), Wiring.position, hl]
  simp only [Wiring.affectsEarlier, hpos, List.any_eq_true, Bool.and_eq_true, bne_iff_ne,
    h.mem_affected hk]
  constructor
  · rintro ⟨j, hm, _, hj⟩
    refine ⟨j, (hbefore j).1 ?_, hm⟩
    cases hn : w.position scope j with
    | none =>
      rw [hn] at hj
      cases hj
    | some n =>
      rw [hn] at hj
      exact ⟨n, rfl, of_decide_eq_true hj⟩
  · rintro ⟨j, hj, hm⟩
    obtain ⟨n, hn, hlt⟩ := (hbefore j).2 hj
    refine ⟨j, hm, fun e => hi (e ▸ hj), ?_⟩
    rw [hn]
    exact decide_eq_true hlt

end Wired

/-! ## Marks -/

namespace Marks

/-- The marks are those of these ids and no others. -/
structure Of (g : Graph) (m : Marks) (ids : List PathId) : Prop where
  lt : ∀ i ∈ ids, i < g.table.size
  roots_sized : m.roots.Sized g.table.size
  ancestors_sized : m.ancestors.Sized g.table.size
  roots : ∀ j, m.roots.get j = true ↔ j ∈ ids
  ancestors : ¬ g.table.depth ≤ 1 → ∀ j, m.ancestors.get j = true ↔ ∃ i ∈ ids, j ∈ g.table.chain i

variable {g : Graph} {w : Wiring} {m : Marks} {ids : List PathId}

theorem of_empty (h : Wired g w) : Of g (empty w) [] where
  lt := nofun
  roots_sized := by rw [← h.pathCount_eq]; exact BitSet.sized_empty _
  ancestors_sized := by rw [← h.pathCount_eq]; exact BitSet.sized_empty _
  roots := fun j => by simp [empty]
  ancestors := fun _ j => by simp [empty]

theorem Of.clear (hm : Of g m ids) : Of g m.clear [] where
  lt := nofun
  roots_sized := hm.roots_sized.clear
  ancestors_sized := hm.ancestors_sized.clear
  roots := fun j => by simp [Marks.clear]
  ancestors := fun _ j => by simp [Marks.clear]

theorem foldl_set {n : Nat} {s : BitSet} (hs : s.Sized n) {l : List Nat} (hl : ∀ i ∈ l, i < n) :
    (l.foldl BitSet.set s).Sized n ∧ ∀ j, (l.foldl BitSet.set s).get j = true ↔ s.get j = true ∨ j ∈ l := by
  induction l generalizing s with
  | nil => exact ⟨hs, fun j => by simp⟩
  | cons i l ih =>
    obtain ⟨hs', hget⟩ := ih (hs.set i) fun k hk => hl k (List.mem_cons_of_mem i hk)
    refine ⟨hs', fun j => ?_⟩
    rw [List.foldl_cons, hget, BitSet.get_set hs (hl i List.mem_cons_self), Bool.or_eq_true, decide_eq_true_eq,
      List.mem_cons, or_assoc, @eq_comm _ i]

theorem Of.mark (h : Wired g w) (hm : Of g m ids) {i : PathId} (hi : i < g.table.size) :
    Of g (m.mark w i) (ids ++ [i]) := by
  have hchain := h.chain_eq hi
  have hchain_lt : ∀ j ∈ g.table.chain i, j < g.table.size := fun j hj => by
    obtain ⟨p, hp⟩ := PathTable.exists_path? hi
    obtain ⟨q, hq, -⟩ := (h.graph.table.mem_chain hp).1 hj
    exact PathTable.lt_size hq
  obtain ⟨hsized, hget⟩ := foldl_set hm.ancestors_sized hchain_lt
  refine ⟨?_, hm.roots_sized.set i, ?_, fun j => ?_, fun hd j => ?_⟩
  · intro j hj
    rcases List.mem_append.1 hj with hj | hj
    · exact hm.lt j hj
    · rwa [List.mem_singleton.1 hj]
  · simp only [Marks.mark, hchain]
    split
    · exact hm.ancestors_sized.set i
    · exact hsized
  · rw [Marks.mark, BitSet.get_set hm.roots_sized hi, Bool.or_eq_true, decide_eq_true_eq, hm.roots j,
      List.mem_append, List.mem_singleton, eq_comm]
  · have hsh : ¬ w.shallow = true := fun e => hd (h.shallow_iff.1 e)
    simp only [Marks.mark, hchain, if_neg hsh]
    rw [hget, hm.ancestors hd]
    simp [or_and_right, exists_or]

theorem Of.foldl_mark (h : Wired g w) (hm : Of g m ids) {ks : List PathId} (hk : ∀ k ∈ ks, k < g.table.size) :
    Of g (ks.foldl (Marks.mark w) m) (ids ++ ks) := by
  induction ks generalizing m ids with
  | nil => simpa using hm
  | cons k ks ih =>
    have := ih (hm.mark h (hk k List.mem_cons_self)) fun j hj => hk j (List.mem_cons_of_mem k hj)
    rwa [List.append_assoc] at this

/-- A path is touched when it overlaps a marked one. -/
theorem Of.touches_iff (h : Wired g w) (hm : Of g m ids) {d : PathId} {q : Path} (hd : g.table.path? d = some q) :
    m.touches w d = true ↔ ∃ i ∈ ids, ∃ p, g.table.path? i = some p ∧ q.overlaps p := by
  by_cases hs : g.table.depth ≤ 1
  · rw [touches, if_pos (h.shallow_iff.2 hs), hm.roots]
    constructor
    · exact fun hi => ⟨d, hi, q, hd, Path.overlaps_refl q⟩
    · intro ⟨i, hi, p, hp, ho⟩
      obtain rfl := PathTable.eq_of_overlaps hs (PathTable.mem_of_path? hd) (PathTable.mem_of_path? hp) ho
      rwa [h.graph.table.path?_inj hd hp]
  · have hsh : ¬ w.shallow = true := fun e => hs (h.shallow_iff.1 e)
    simp only [touches, if_neg hsh, Bool.or_eq_true, hm.ancestors hs, List.any_eq_true, hm.roots,
      h.mem_chain hd]
    constructor
    · intro hcase
      rcases hcase with ⟨i, hi, hc⟩ | ⟨i, ⟨p, hp, hc⟩, hi⟩
      · obtain ⟨p, hp⟩ := PathTable.exists_path? (hm.lt i hi)
        obtain ⟨q', hq', hc⟩ := (h.graph.table.mem_chain hp).1 hc
        obtain rfl : q = q' := Option.some.inj (hd.symm.trans hq')
        exact ⟨i, hi, p, hp, Path.overlaps_iff.2 (.inl hc)⟩
      · exact ⟨i, hi, p, hp, Path.overlaps_iff.2 (.inr hc)⟩
    · intro ⟨i, hi, p, hp, ho⟩
      rcases Path.overlaps_iff.1 ho with hc | hc
      · exact .inl ⟨i, hi, (h.graph.table.mem_chain hp).2 ⟨q, hd, hc⟩⟩
      · exact .inr ⟨i, ⟨p, hp, hc⟩, hi⟩

/-- A step is touched when a marked path may move it. -/
theorem Of.touchesStep_iff (h : Wired g w) (hm : Of g m ids) {s : StepId} :
    m.touchesStep w s = true ↔ ∃ i ∈ ids, ∃ p, g.table.path? i = some p ∧ g.Moves p s := by
  cases hs : g.step? s with
  | none => simp [touchesStep, h.inputsOf_of_none hs, Graph.Moves, hs]
  | some st =>
    rw [touchesStep, h.inputsOf_eq hs, List.any_eq_true]
    constructor
    · intro ⟨d, hd, ht⟩
      obtain ⟨q, hq⟩ := h.input_path hs hd
      obtain ⟨i, hi, p, hp, ho⟩ := (hm.touches_iff h hq).1 ht
      exact ⟨i, hi, p, hp, st, d, q, hs, hd, hq, ho⟩
    · intro ⟨i, hi, p, hp, st', d, q, hs', hd, hq, ho⟩
      obtain rfl : st = st' := Option.some.inj (hs.symm.trans hs')
      exact ⟨d, hd, (hm.touches_iff h hq).2 ⟨i, hi, p, hp, ho⟩⟩

/-- Clearing forgets what was marked. -/
theorem clear_mark (w : Wiring) (m : Marks) (k : PathId) : (m.mark w k).clear = m.clear := by
  simp only [clear, mark, BitSet.clear_set]
  split
  · rw [BitSet.clear_set]
  · rw [BitSet.clear_foldl_set]

theorem clear_foldl_mark (w : Wiring) (ks : List PathId) (m : Marks) :
    (ks.foldl (mark w) m).clear = m.clear := by
  induction ks generalizing m with
  | nil => rfl
  | cons k ks ih => rw [List.foldl_cons, ih, clear_mark]

end Marks

end Settle
