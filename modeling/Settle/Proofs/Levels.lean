/-
  Settle.Proofs.Levels — what peeling makes of the reads among steps (see
  `Settle.Graph.Order`).

  A level is all of the remaining steps that read no other remaining one. So a step of
  a level reads only steps of the levels before it (`reads_before`), and, unless the
  level is the first, one of the level just before (`reads_previous`): its depth is its
  level. What is left over is closed the other way: each of those steps reads another
  one of them (`exists_read_left`), and nothing else reads any (`not_reads_left`).
-/

import Settle.Proofs.Graph

namespace Settle.Order

variable {table : PathTable} {l : List Step} {s t : Step}

/-- The steps that a level takes. -/
def free (table : PathTable) (remaining : List Step) : List Step := remaining.filter fun s => !blocked table remaining s

theorem blocked_iff : blocked table l s = true ↔ ∃ w ∈ l, s.reads table w = true := List.any_eq_true

theorem mem_free : s ∈ free table l ↔ s ∈ l ∧ ∀ w ∈ l, s.reads table w = false := by
  simp only [free, List.mem_filter, Bool.not_eq_true', blocked, List.any_eq_false, Bool.not_eq_true]

theorem mem_waiting : s ∈ waiting table l ↔ s ∈ l ∧ ∃ w ∈ l, s.reads table w = true := by
  rw [waiting, List.mem_filter, blocked_iff]

/-- A level and what is then left make up the remaining steps. -/
theorem mem_free_or_waiting (hs : s ∈ l) : s ∈ free table l ∨ s ∈ waiting table l := by
  cases hb : blocked table l s with
  | true => exact .inr (List.mem_filter.2 ⟨hs, hb⟩)
  | false => exact .inl (List.mem_filter.2 ⟨hs, by rw [hb]; rfl⟩)

theorem length_free_add (table : PathTable) (l : List Step) :
    (free table l).length + (waiting table l).length = l.length := by
  have h := List.length_eq_length_filter_add (l := l) (fun s => !blocked table l s)
  simp only [Bool.not_not] at h
  exact h.symm

theorem mem_of_mem_levels (hs : s ∈ (levels table l).1.flatten) : s ∈ l :=
  (Graph.levels_perm table l).mem_iff.1 (List.mem_append_left _ hs)

/-! ## What is left over -/

theorem left_sublist (table : PathTable) (l : List Step) : (levels table l).2.Sublist l := by
  fun_induction levels table l with
  | case1 l _ more left heq ih =>
    rw [heq] at ih
    exact ih.trans List.filter_sublist
  | case2 l _ => exact List.Sublist.refl l

/-- Each of the steps left over reads another one of them. -/
theorem exists_read_left (hs : s ∈ (levels table l).2) : ∃ t ∈ (levels table l).2, s.reads table t = true := by
  fun_induction levels table l with
  | case1 l _ more left heq ih =>
    rw [heq] at ih
    exact ih hs
  | case2 l hn =>
    -- no level is taken, so every step is blocked
    have hlen : (l.filter (blocked table l)).length = l.length := by
      have hle : (waiting table l).length ≤ l.length := List.length_filter_le _ _
      simp only [waiting] at hn hle
      omega
    exact blocked_iff.1 (List.filter_eq_self.1 (List.filter_sublist.eq_of_length hlen) s hs)

/-- No step that a level takes reads one left over. -/
theorem not_reads_left (hs : s ∈ (levels table l).1.flatten) (ht : t ∈ (levels table l).2) :
    s.reads table t = false := by
  fun_induction levels table l with
  | case1 l _ more left heq ih =>
    rw [heq] at ih
    rcases List.mem_append.1 (List.flatten_cons ▸ hs) with hs | hs
    · have htl : t ∈ waiting table l := by
        have hsub := left_sublist table (waiting table l)
        rw [heq] at hsub
        exact hsub.subset ht
      exact (mem_free.1 hs).2 t (mem_waiting.1 htl).1
    · exact ih hs ht
  | case2 l _ => simp at hs

/-! ## Depth -/

theorem not_reads_level {level : List Step} (hlevel : level ∈ (levels table l).1) (hs : s ∈ level) (ht : t ∈ level) :
    s.reads table t = false := by
  fun_induction levels table l with
  | case1 l _ more left heq ih =>
    rw [heq] at ih
    rcases List.mem_cons.1 hlevel with rfl | hlevel
    · exact (mem_free.1 hs).2 t (mem_free.1 ht).1
    · exact ih hlevel
  | case2 l _ => cases hlevel

/-- What a step of a level reads of the remaining steps is of an earlier level. -/
theorem reads_before {k : Nat} {level : List Step} (hk : (levels table l).1[k]? = some level) (hs : s ∈ level) (ht : t ∈ l)
    (hr : s.reads table t = true) : ∃ m level', m < k ∧ (levels table l).1[m]? = some level' ∧ t ∈ level' := by
  fun_induction levels table l generalizing k with
  | case1 l _ more left heq ih =>
    rw [heq] at ih
    cases k with
    | zero =>
      obtain rfl : free table l = level := Option.some.inj hk
      rw [(mem_free.1 hs).2 t ht] at hr
      cases hr
    | succ k =>
      rcases mem_free_or_waiting ht with ht | ht
      · exact ⟨0, _, Nat.succ_pos k, rfl, ht⟩
      · obtain ⟨m, level', hm, hlevel, ht⟩ := ih (by simpa using hk) ht
        exact ⟨m + 1, level', Nat.succ_lt_succ hm, by simpa using hlevel, ht⟩
  | case2 l _ => simp at hk

/-- A step of any level but the first reads one of the level before. -/
theorem reads_previous {k : Nat} {level : List Step} (hk : (levels table l).1[k + 1]? = some level) (hs : s ∈ level) :
    ∃ level' t, (levels table l).1[k]? = some level' ∧ t ∈ level' ∧ s.reads table t = true := by
  fun_induction levels table l generalizing k with
  | case1 l _ more left heq ih =>
    rw [heq] at ih
    have hk : more[k]? = some level := by simpa using hk
    cases k with
    | succ k =>
      obtain ⟨level', t, hlevel, ht, hr⟩ := ih hk
      exact ⟨level', t, by simpa using hlevel, ht, hr⟩
    | zero =>
      -- it was blocked when the first level was taken, and is not any more
      have hfree : s ∈ free table (waiting table l) := by
        rw [levels] at heq
        split at heq
        · obtain ⟨rfl, -⟩ := Prod.mk.inj heq
          obtain rfl : free table (waiting table l) = level := Option.some.inj hk
          exact hs
        · obtain ⟨rfl, -⟩ := Prod.mk.inj heq
          cases hk
      obtain ⟨hs, hunread⟩ := mem_free.1 hfree
      obtain ⟨w, hw, hr⟩ := (mem_waiting.1 hs).2
      rcases mem_free_or_waiting hw with hw | hw
      · exact ⟨_, w, rfl, hw, hr⟩
      · rw [hunread w hw] at hr
        cases hr
  | case2 l _ => simp at hk

end Settle.Order
