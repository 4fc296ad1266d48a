/-
  Settle.Proofs.Path — covering, overlap and order of paths (see `Settle.Path`).

  A path covers what it is an initial part of, and the initial parts of one path cover
  each other one way or the other. So whatever overlaps a path overlaps everything that
  covers it (`overlaps_of_covers`): a set of roots loses no overlap when a root makes
  way for one that covers it. What a path covers follows it without a gap
  (`covers_of_between`), so of the roots none overlaps another (`pairwise_roots`).
-/

import Mathlib
import Settle.Path

namespace Settle.Path

theorem ext_segments {p q : Path} (h : p.segments = q.segments) : p = q := by
  cases p; cases q; simpa using h

/-! ## Covering -/

theorem covers_iff {p q : Path} : p.covers q = true ↔ p.segments <+: q.segments := by
  simp [covers]

@[simp] theorem covers_refl (p : Path) : p.covers p = true := covers_iff.2 (List.prefix_refl _)

theorem covers_trans {p q r : Path} (h₁ : p.covers q) (h₂ : q.covers r) : p.covers r :=
  covers_iff.2 ((covers_iff.1 h₁).trans (covers_iff.1 h₂))

theorem covers_antisymm {p q : Path} (h₁ : p.covers q) (h₂ : q.covers p) : p = q :=
  ext_segments ((covers_iff.1 h₁).eq_of_length_le (covers_iff.1 h₂).length_le)

/-- What covers one path lies on one line. -/
theorem covers_total {p q r : Path} (h₁ : p.covers r) (h₂ : q.covers r) : p.covers q ∨ q.covers p :=
  (List.prefix_or_prefix_of_prefix (covers_iff.1 h₁) (covers_iff.1 h₂)).imp covers_iff.2 covers_iff.2

/-! ## Overlap -/

theorem overlaps_iff {p q : Path} : p.overlaps q = true ↔ p.covers q = true ∨ q.covers p = true := by
  simp [overlaps]

@[simp] theorem overlaps_refl (p : Path) : p.overlaps p = true := overlaps_iff.2 (.inl (covers_refl p))

theorem overlaps_comm (p q : Path) : p.overlaps q = q.overlaps p := Bool.or_comm _ _

/-- What overlaps a path overlaps whatever covers it. -/
theorem overlaps_of_covers {p q r : Path} (h : q.covers p) (ho : p.overlaps r) : q.overlaps r := by
  rcases overlaps_iff.1 ho with hp | hr
  · exact overlaps_iff.2 (.inl (covers_trans h hp))
  · exact overlaps_iff.2 (covers_total h hr)

/-! ## Ancestry -/

theorem take?_eq_some {p q : Path} {n : Nat} :
    p.take? n = some q ↔ p.segments.take n = q.segments ∧ n ≤ p.segments.length := by
  unfold take?
  split
  · rename_i h
    exact ⟨fun e => ⟨by cases e; rfl, h.2⟩, fun e => congrArg some (ext_segments e.1)⟩
  · rename_i h
    exact ⟨nofun, fun e => absurd ⟨e.1 ▸ q.nonempty, e.2⟩ h⟩

theorem mem_ancestry {p q : Path} : q ∈ p.ancestry ↔ q.covers p := by
  simp only [ancestry, List.mem_filterMap, List.mem_range, take?_eq_some, covers_iff, length]
  constructor
  · intro ⟨n, _, hn, _⟩
    exact hn ▸ List.take_prefix _ _
  · intro h
    have hpos : 0 < q.segments.length := List.length_pos_iff.2 q.nonempty
    have hle := h.length_le
    refine ⟨q.segments.length - 1, by omega, ?_, by omega⟩
    rw [Nat.sub_add_cancel hpos]
    exact (List.prefix_iff_eq_take.1 h).symm

/-- Ancestries list shorter paths first. -/
theorem ancestry_pairwise (p : Path) : p.ancestry.Pairwise fun q r => q.length < r.length := by
  refine List.Pairwise.filterMap _ ?_ List.pairwise_lt_range
  intro n m hnm q hq r hr
  have hq := take?_eq_some.1 hq
  have hr := take?_eq_some.1 hr
  rw [length, length, ← hq.1, ← hr.1, List.length_take, List.length_take]
  omega

/-! ## Order -/

theorem le_iff {p q : Path} : le p q = true ↔ ¬ q.segments < p.segments := by
  simp only [le, Bool.not_eq_true', decide_eq_false_iff_not]
  exact Iff.rfl

theorem le_total (p q : Path) : le p q || le q p := by
  rw [Bool.or_eq_true, le_iff, le_iff]
  exact (List.le_total p.segments q.segments)

theorem le_trans {p q r : Path} (h₁ : le p q) (h₂ : le q r) : le p r :=
  le_iff.2 (List.le_trans (le_iff.1 h₁) (le_iff.1 h₂))

theorem le_antisymm {p q : Path} (h₁ : le p q) (h₂ : le q p) : p = q :=
  ext_segments (List.le_antisymm (le_iff.1 h₁) (le_iff.1 h₂))

/-- A path comes before what it covers. -/
theorem le_of_covers {p q : Path} (h : p.covers q) : le p q := by
  obtain ⟨t, ht⟩ := covers_iff.1 h
  rw [le_iff, ← ht]
  exact List.not_lt.2 (List.le_append_left)

theorem pairwise_mergeSort_le (l : List Path) : (l.mergeSort le).Pairwise fun p q => le p q :=
  @List.pairwise_mergeSort _ le (fun _ _ _ => le_trans) le_total l

theorem prefix_of_between {l m : List String} (t : List String) (hlm : ¬ m < l) (hmt : ¬ l ++ t < m) : l <+: m := by
  induction l generalizing m with
  | nil => exact List.nil_prefix
  | cons a l ih =>
    cases m with
    | nil => exact absurd (List.nil_lt_cons a l) hlm
    | cons b m =>
      rw [List.cons_lt_cons_iff, not_or, not_and] at hlm
      rw [List.cons_append, List.cons_lt_cons_iff, not_or, not_and] at hmt
      have hab : a = b := String.le_antisymm (String.not_lt.1 hlm.1) (String.not_lt.1 hmt.1)
      subst hab
      exact List.cons_prefix_cons.2 ⟨rfl, ih (hlm.2 rfl) (hmt.2 rfl)⟩

/-- A path between two in the order lies under the first if the second does. -/
theorem covers_of_between {p q r : Path} (hpq : p.le q) (hqr : q.le r) (h : p.covers r) : p.covers q := by
  obtain ⟨t, ht⟩ := covers_iff.1 h
  rw [le_iff] at hpq hqr
  exact covers_iff.2 (prefix_of_between t hpq (ht ▸ hqr))

/-! ## Roots -/

theorem mem_of_mem_dropCovered {o : Option Path} {l : List Path} {p : Path} (h : p ∈ dropCovered o l) : p ∈ l := by
  induction l generalizing o with
  | nil => cases o <;> simp [dropCovered] at h
  | cons q l ih =>
    cases o with
    | none =>
      rcases List.mem_cons.1 h with rfl | h
      · exact List.mem_cons_self
      · exact List.mem_cons_of_mem q (ih h)
    | some r =>
      simp only [dropCovered] at h
      split at h
      · exact List.mem_cons_of_mem q (ih h)
      · rcases List.mem_cons.1 h with rfl | h
        · exact List.mem_cons_self
        · exact List.mem_cons_of_mem q (ih h)

/-- A path that is dropped is covered by one that is kept. -/
theorem exists_covers_of_dropCovered {o : Option Path} {l : List Path} {p : Path} (h : p ∈ l) :
    (∃ r, o = some r ∧ r.covers p) ∨ ∃ r ∈ dropCovered o l, r.covers p := by
  induction l generalizing o with
  | nil => cases h
  | cons q l ih =>
    cases o with
    | none =>
      right
      rcases List.mem_cons.1 h with rfl | h
      · exact ⟨p, List.mem_cons_self, covers_refl p⟩
      · rcases ih (o := some q) h with ⟨r, hr, hc⟩ | ⟨r, hr, hc⟩
        · exact ⟨q, List.mem_cons_self, by cases hr; exact hc⟩
        · exact ⟨r, List.mem_cons_of_mem q hr, hc⟩
    | some s =>
      simp only [dropCovered]
      split
      · rename_i hs
        rcases List.mem_cons.1 h with rfl | h
        · exact .inl ⟨s, rfl, hs⟩
        · exact ih h
      · rcases List.mem_cons.1 h with rfl | h
        · exact .inr ⟨p, List.mem_cons_self, covers_refl p⟩
        · rcases ih (o := some q) h with ⟨r, hr, hc⟩ | ⟨r, hr, hc⟩
          · exact .inr ⟨q, List.mem_cons_self, by cases hr; exact hc⟩
          · exact .inr ⟨r, List.mem_cons_of_mem q hr, hc⟩

theorem mem_of_mem_roots {l : List Path} {p : Path} (h : p ∈ roots l) : p ∈ l :=
  List.mem_mergeSort.1 (mem_of_mem_dropCovered h)

theorem exists_root_covers {l : List Path} {p : Path} (h : p ∈ l) : ∃ r ∈ roots l, r.covers p := by
  have hm : p ∈ l.mergeSort le := List.mem_mergeSort.2 h
  rcases exists_covers_of_dropCovered (o := none) hm with ⟨r, hr, -⟩ | hr
  · cases hr
  · exact hr

/-- What is kept comes after the last one kept before, and that one does not cover it. -/
theorem pairwise_dropCovered {l : List Path} (o : Option Path) (hl : l.Pairwise fun p q => p.le q)
    (ho : ∀ r ∈ o, ∀ p ∈ l, r.le p) :
    (dropCovered o l).Pairwise (fun p q => p.le q ∧ p.covers q = false) ∧
      ∀ r ∈ o, ∀ p ∈ dropCovered o l, r.covers p = false := by
  induction l generalizing o with
  | nil => cases o <;> exact ⟨.nil, fun _ _ _ h => nomatch h⟩
  | cons q l ih =>
    obtain ⟨hq, hl⟩ := List.pairwise_cons.1 hl
    have hkeep : (q :: dropCovered (some q) l).Pairwise fun p s => p.le s ∧ p.covers s = false := by
      obtain ⟨hpw, hout⟩ := ih (some q) hl fun r hr p hp => Option.mem_some.1 hr ▸ hq p hp
      exact List.pairwise_cons.2 ⟨fun p hp => ⟨hq p (mem_of_mem_dropCovered hp), hout q rfl p hp⟩, hpw⟩
    cases o with
    | none => exact ⟨hkeep, fun _ h => nomatch h⟩
    | some r =>
      have hr := ho r rfl
      rw [dropCovered]
      split
      · exact ih (some r) hl fun r' hr' p hp => Option.mem_some.1 hr' ▸ hr p (List.mem_cons_of_mem q hp)
      · rename_i hc
        have hnot : ∀ p ∈ q :: dropCovered (some q) l, r.covers p = false := by
          intro p hp
          refine Bool.eq_false_iff.2 fun hrp => hc ?_
          have hqp : q.le p := by
            rcases List.mem_cons.1 hp with rfl | hp
            · exact le_of_covers (covers_refl p)
            · exact hq p (mem_of_mem_dropCovered hp)
          exact covers_of_between (hr q List.mem_cons_self) hqp hrp
        exact ⟨hkeep, fun r' hr' => Option.mem_some.1 hr' ▸ hnot⟩

/-- The roots come in order, and none of them overlaps another. -/
theorem pairwise_roots (l : List Path) : (roots l).Pairwise fun p q => p.le q ∧ p.overlaps q = false := by
  refine (pairwise_dropCovered none (pairwise_mergeSort_le l) fun _ h => nomatch h).1.imp fun {p q} h => ⟨h.1, ?_⟩
  rw [overlaps, h.2, Bool.false_or]
  refine Bool.eq_false_iff.2 fun hqp => ?_
  obtain rfl := le_antisymm h.1 (le_of_covers hqp)
  exact absurd (covers_refl p) (Bool.eq_false_iff.1 h.2)

theorem pairwise_roots_ne (l : List Path) : (roots l).Pairwise fun p q => p.le q ∧ p ≠ q := by
  refine (pairwise_roots l).imp fun {p q} h => ⟨h.1, ?_⟩
  rintro rfl
  exact absurd (overlaps_refl p) (Bool.eq_false_iff.1 h.2)

end Settle.Path
