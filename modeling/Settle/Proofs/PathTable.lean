/-
  Settle.Proofs.PathTable — path tables: ids and paths stand for each other (see
  `Settle.Graph.PathTable`).

  In a table of paths with all their ancestors, each once (`WellFormed`), ids are given
  in the order of the paths (`lt_of_le`), and the chain of an id is what covers its path
  (`mem_chain`). A path that the table lacks counts as its nearest ancestor there; the
  two overlap the same paths of the table (`resolve_overlaps`).
-/

import Settle.Graph.PathTable
import Settle.Proofs.Path

namespace Settle

/-! ## Sorted lists without repetitions -/

theorem pairwise_mergeSort_nat (l : List Nat) : l.mergeSort.Pairwise (· ≤ ·) := by
  have htrans : ∀ a b c : Nat, decide (a ≤ b) = true → decide (b ≤ c) = true → decide (a ≤ c) = true := by
    simpa using fun a b c => Nat.le_trans
  have htotal : ∀ a b : Nat, (decide (a ≤ b) || decide (b ≤ a)) = true := by simpa using Nat.le_total
  simpa using List.pairwise_mergeSort htrans htotal l

theorem mergeSort_nat {l sorted : List Nat} (hp : l.Perm sorted) (hs : sorted.Pairwise (· ≤ ·)) :
    l.mergeSort = sorted :=
  ((List.mergeSort_perm l _).trans hp).eq_of_pairwise (fun _ _ _ _ => Nat.le_antisymm) (pairwise_mergeSort_nat l) hs

section EraseReps

variable {α : Type} [DecidableEq α]

theorem eraseReps_loop (l : List α) (a : α) (acc : List α) :
    List.eraseRepsBy.loop (· == ·) a l acc = acc.reverse ++ List.eraseRepsBy.loop (· == ·) a l [] := by
  induction l generalizing a acc with
  | nil => simp [List.eraseRepsBy.loop]
  | cons b l ih =>
    simp only [List.eraseRepsBy.loop]
    split
    · exact ih a acc
    · rw [ih b (a :: acc), ih b [a]]
      simp

theorem eraseReps_cons (a b : α) (l : List α) :
    (a :: b :: l).eraseReps = if a = b then (b :: l).eraseReps else a :: (b :: l).eraseReps := by
  simp only [List.eraseReps, List.eraseRepsBy, List.eraseRepsBy.loop]
  by_cases h : a = b
  · simp [h]
  · have hne : (a == b) = false := beq_eq_false_iff_ne.2 h
    simp [h, hne, eraseReps_loop l b [a]]

theorem mem_eraseReps {x : α} {l : List α} : x ∈ l.eraseReps ↔ x ∈ l := by
  induction l with
  | nil => rfl
  | cons a l ih =>
    cases l with
    | nil => rfl
    | cons b l =>
      rw [eraseReps_cons]
      split
      · rename_i h
        rw [ih, h, List.mem_cons (b := b), List.mem_cons]
        simp
      · rw [List.mem_cons, ih]
        exact List.mem_cons.symm

/-- Dropping repetitions from a sorted list leaves each element once, in order. -/
theorem pairwise_eraseReps {r : α → α → Prop} (hanti : ∀ {x y}, r x y → r y x → x = y) {l : List α}
    (h : l.Pairwise r) :
    l.eraseReps.Pairwise fun x y => r x y ∧ x ≠ y := by
  induction l with
  | nil => exact .nil
  | cons a l ih =>
    cases l with
    | nil => exact List.pairwise_singleton _ _
    | cons b l =>
      obtain ⟨ha, hl⟩ := List.pairwise_cons.1 h
      rw [eraseReps_cons]
      split
      · exact ih hl
      · rename_i hab
        refine List.pairwise_cons.2 ⟨fun x hx => ?_, ih hl⟩
        have hx := mem_eraseReps.1 hx
        refine ⟨ha x hx, fun e => hab ?_⟩
        -- an equal one further on would be equal to the next one too
        rcases List.mem_cons.1 hx with rfl | hx
        · exact e
        · exact hanti (ha b List.mem_cons_self) (e ▸ (List.pairwise_cons.1 hl).1 x hx)

end EraseReps

/-- Sorted and each once, ids are increasing. -/
theorem increasing_tidy (l : List Nat) : l.mergeSort.eraseReps.Pairwise (· < ·) :=
  (pairwise_eraseReps Nat.le_antisymm (pairwise_mergeSort_nat l)).imp fun h => Nat.lt_of_le_of_ne h.1 h.2

namespace PathTable

/-- Sorted, each path once, with the ancestors of each. -/
structure WellFormed (t : PathTable) : Prop where
  sorted : t.paths.Pairwise fun p q => p.le q ∧ p ≠ q
  closed : ∀ p ∈ t.paths, ∀ q : Path, q.covers p → q ∈ t.paths

theorem mem_ofPaths {ps : List Path} {q : Path} : q ∈ (ofPaths ps).paths ↔ ∃ p ∈ ps, q.covers p := by
  simp [ofPaths, mem_eraseReps, Path.mem_ancestry]

theorem ofPaths_wellFormed (ps : List Path) : (ofPaths ps).WellFormed where
  sorted := pairwise_eraseReps (r := fun p q : Path => p.le q) Path.le_antisymm (Path.pairwise_mergeSort_le _)
  closed := fun p hp q hq => by
    obtain ⟨r, hr, hc⟩ := mem_ofPaths.1 hp
    exact mem_ofPaths.2 ⟨r, hr, Path.covers_trans hq hc⟩

variable {t : PathTable}

theorem WellFormed.nodup (h : t.WellFormed) : t.paths.Nodup := h.sorted.imp And.right

/-! ## Ids -/

theorem path?_of_id? {p : Path} {i : PathId} (h : t.id? p = some i) : t.path? i = some p := by
  obtain ⟨hi, hp, -⟩ := List.idxOf?_eq_some_iff.1 h
  exact List.getElem?_eq_some_iff.2 ⟨hi, hp⟩

theorem WellFormed.id?_of_path? (h : t.WellFormed) {p : Path} {i : PathId} (hi : t.path? i = some p) :
    t.id? p = some i := by
  obtain ⟨hlt, hp⟩ := List.getElem?_eq_some_iff.1 hi
  refine List.idxOf?_eq_some_iff.2 ⟨hlt, hp, fun j hj e => ?_⟩
  exact absurd ((List.getElem_inj h.nodup).1 (e.trans hp.symm)) (Nat.ne_of_lt hj)

theorem WellFormed.id?_iff (h : t.WellFormed) {p : Path} {i : PathId} : t.id? p = some i ↔ t.path? i = some p :=
  ⟨path?_of_id?, h.id?_of_path?⟩

theorem exists_id? {p : Path} (h : p ∈ t.paths) : ∃ i, t.id? p = some i :=
  Option.isSome_iff_exists.1 (List.isSome_idxOf?.2 h)

theorem mem_of_path? {p : Path} {i : PathId} (h : t.path? i = some p) : p ∈ t.paths := List.mem_of_getElem? h

theorem exists_path? {i : PathId} (h : i < t.size) : ∃ p, t.path? i = some p := ⟨_, List.getElem?_eq_getElem h⟩

theorem lt_size {p : Path} {i : PathId} (h : t.path? i = some p) : i < t.size := (List.getElem?_eq_some_iff.1 h).1

theorem WellFormed.path?_inj (h : t.WellFormed) {p : Path} {i j : PathId} (hi : t.path? i = some p)
    (hj : t.path? j = some p) : i = j :=
  Option.some.inj ((h.id?_of_path? hi).symm.trans (h.id?_of_path? hj))

/-- Ids are given in the order of the paths. -/
theorem WellFormed.lt_of_le (h : t.WellFormed) {p q : Path} {i j : PathId} (hi : t.path? i = some p)
    (hj : t.path? j = some q) (hle : p.le q) (hne : p ≠ q) : i < j := by
  obtain ⟨hi', rfl⟩ := List.getElem?_eq_some_iff.1 hi
  obtain ⟨hj', rfl⟩ := List.getElem?_eq_some_iff.1 hj
  rcases Nat.lt_trichotomy i j with hlt | rfl | hlt
  · exact hlt
  · exact absurd rfl hne
  · have hge := (List.pairwise_iff_getElem.1 h.sorted j i hj' hi' hlt).1
    exact absurd (Path.le_antisymm hle hge) hne

/-- The ids of paths of a table that come in order are increasing. -/
theorem WellFormed.pairwise_ids (ht : t.WellFormed) {l : List Path}
    (hl : l.Pairwise fun p q => p.le q ∧ p ≠ q) : (l.filterMap t.id?).Pairwise (· < ·) := by
  refine hl.filterMap _ fun p q hpq i hi j hj => ?_
  exact ht.lt_of_le (path?_of_id? hi) (path?_of_id? hj) hpq.1 hpq.2

/-! ## Chains and overlap -/

theorem WellFormed.mem_chain (h : t.WellFormed) {i j : PathId} {p : Path} (hi : t.path? i = some p) :
    j ∈ t.chain i ↔ ∃ q, t.path? j = some q ∧ q.covers p := by
  simp only [chain, hi, List.mem_filterMap, Path.mem_ancestry, h.id?_iff]
  exact exists_congr fun q => And.comm

theorem overlap_iff {i j : PathId} {p q : Path} (hi : t.path? i = some p) (hj : t.path? j = some q) :
    t.overlap i j = p.overlaps q := by
  simp [overlap, hi, hj]

theorem foldl_max_le {f : Path → Nat} {l : List Path} {n m : Nat} (h : l.foldl (fun n p => max n (f p)) n ≤ m) :
    n ≤ m ∧ ∀ p ∈ l, f p ≤ m := by
  induction l generalizing n with
  | nil => exact ⟨h, nofun⟩
  | cons p l ih =>
    obtain ⟨hm, hl⟩ := ih h
    obtain ⟨hn, hp⟩ := Nat.max_le.1 hm
    refine ⟨hn, fun q hq => ?_⟩
    rcases List.mem_cons.1 hq with rfl | hq
    · exact hp
    · exact hl q hq

/-- Where no path has more than one segment, overlap is equality. -/
theorem eq_of_overlaps (hd : t.depth ≤ 1) {p q : Path} (hp : p ∈ t.paths) (hq : q ∈ t.paths) (h : p.overlaps q) :
    p = q := by
  have hlen : ∀ r ∈ t.paths, r.segments.length = 1 := fun r hr => by
    have := (foldl_max_le hd).2 r hr
    have := List.length_pos_iff.2 r.nonempty
    simp only [Path.length] at *
    omega
  rcases Path.overlaps_iff.1 h with h | h
  · exact Path.ext_segments ((Path.covers_iff.1 h).eq_of_length (by rw [hlen p hp, hlen q hq]))
  · exact Path.ext_segments ((Path.covers_iff.1 h).eq_of_length (by rw [hlen p hp, hlen q hq])).symm

/-! ## Paths the table lacks -/

/-- What a path counts as covers it, and is covered by whatever else of the table does. -/
theorem resolve_eq_some {p : Path} {i : PathId} (h : t.resolve p = some i) :
    ∃ q, t.path? i = some q ∧ q.covers p ∧ ∀ r ∈ t.paths, r.covers p → r.covers q := by
  obtain ⟨l₁, q, l₂, hl, hq, hnone⟩ := List.findSome?_eq_some_iff.1 h
  have hmem : q ∈ p.ancestry := List.mem_reverse.1 (hl ▸ by simp)
  refine ⟨q, path?_of_id? hq, Path.mem_ancestry.1 hmem, fun r hr hc => ?_⟩
  have hr' : r ∈ p.ancestry.reverse := List.mem_reverse.2 (Path.mem_ancestry.2 hc)
  rw [hl, List.mem_append, List.mem_cons] at hr'
  rcases hr' with hr' | rfl | hr'
  · -- those before the one found are not in the table
    obtain ⟨k, hk⟩ := exists_id? hr
    rw [hnone r hr'] at hk
    cases hk
  · exact Path.covers_refl r
  · -- those after it are shorter, and lie on the same line
    have hpw : p.ancestry.reverse.Pairwise fun a b => b.length < a.length :=
      List.pairwise_reverse.2 (Path.ancestry_pairwise p)
    rw [hl] at hpw
    have hlt := (List.pairwise_cons.1 (List.pairwise_append.1 hpw).2.1).1 r hr'
    rcases Path.covers_total hc (Path.mem_ancestry.1 hmem) with h | h
    · exact h
    · exact absurd (Path.covers_iff.1 h).length_le (by simpa [Path.length] using hlt)

theorem resolve_eq_none {p : Path} : t.resolve p = none ↔ ∀ q ∈ t.paths, ¬ q.covers p := by
  rw [resolve, List.findSome?_eq_none_iff]
  constructor
  · intro hp q hq hc
    obtain ⟨i, hi⟩ := exists_id? hq
    rw [hp q (List.mem_reverse.2 (Path.mem_ancestry.2 hc))] at hi
    cases hi
  · intro hp q hq
    refine List.idxOf?_eq_none_iff.2 fun hmem => hp q hmem ?_
    exact Path.mem_ancestry.1 (List.mem_reverse.1 hq)

theorem exists_resolve {p q : Path} (hq : q ∈ t.paths) (hc : q.covers p) : ∃ i, t.resolve p = some i :=
  Option.ne_none_iff_exists'.1 fun hnone => resolve_eq_none.1 hnone q hq hc

/-- A path overlaps nothing of the table that its stand-in there does not. -/
theorem WellFormed.resolve_overlaps (h : t.WellFormed) {p r : Path} (hr : r ∈ t.paths) (ho : p.overlaps r) :
    ∃ i q, t.resolve p = some i ∧ t.path? i = some q ∧ q.overlaps r := by
  have hcov : ∃ s ∈ t.paths, s.covers p := by
    rcases Path.overlaps_iff.1 ho with hp | hp
    · exact ⟨p, h.closed r hr p hp, Path.covers_refl p⟩
    · exact ⟨r, hr, hp⟩
  obtain ⟨s, hs, hc⟩ := hcov
  obtain ⟨i, hi⟩ := exists_resolve hs hc
  obtain ⟨q, hq, hqp, -⟩ := resolve_eq_some hi
  exact ⟨i, q, hi, hq, Path.overlaps_of_covers hqp ho⟩

end PathTable

end Settle
