/-
  Settle.Proofs.Members — a bit set stands for a finite set of indices (see
  `Settle.Plan.BitSet`).

  Taking out lowest bits lists the bits of a word in increasing order (`positions_eq`), and
  there are as many as are counted (`popCount_eq`). Word by word this makes the members
  listed those whose bit is set (`toList_eq`), and the count their number (`count_eq`),
  whatever the words are. So through a history of edits only the bits that are set have to
  be followed (`Holds.edit`): what a set is asked and answers along the way, and how it
  reads in the end, is as if a finite set had been edited (`stands_for_finset`).
-/

import Settle.Plan.Scratch

namespace Settle.BitSet

/-! ## The lowest bit -/

section Word

variable {w : UInt64} {x t k : Nat}

/-- Below its lowest bit a number is zero. -/
theorem eq_of_lowest (ht : x.testBit t = true) (hlow : ∀ k < t, x.testBit k = false) :
    x = 2 ^ (t + 1) * (x / 2 ^ (t + 1)) + 2 ^ t := by
  have hmod : x % 2 ^ (t + 1) = 2 ^ t := by
    refine Nat.eq_of_testBit_eq fun k => ?_
    rw [Nat.testBit_mod_two_pow, Nat.testBit_two_pow]
    rcases Nat.lt_trichotomy k t with hk | rfl | hk
    · rw [hlow k hk, Bool.and_false, decide_eq_false (Nat.ne_of_gt hk)]
    · rw [ht, decide_eq_true (Nat.lt_succ_self k), decide_eq_true rfl, Bool.and_true]
    · rw [decide_eq_false (Nat.not_lt.2 hk), Bool.false_and, decide_eq_false (Nat.ne_of_lt hk)]
  calc x
    _ = 2 ^ (t + 1) * (x / 2 ^ (t + 1)) + x % 2 ^ (t + 1) := (Nat.div_add_mod _ _).symm
    _ = 2 ^ (t + 1) * (x / 2 ^ (t + 1)) + 2 ^ t := by rw [hmod]

/-- With one less, a number has all its bits in common but the lowest. -/
theorem testBit_and_sub_one (q t k : Nat) :
    ((2 ^ (t + 1) * q + 2 ^ t) &&& (2 ^ (t + 1) * q + 2 ^ t - 1)).testBit k =
      ((2 ^ (t + 1) * q + 2 ^ t).testBit k && decide (k ≠ t)) := by
  have hlt : 2 ^ t < 2 ^ (t + 1) := Nat.pow_lt_pow_right (by decide) (Nat.lt_succ_self t)
  have hone : 2 ^ (t + 1) * q + 2 ^ t - 1 = 2 ^ (t + 1) * q + (2 ^ t - 1) := Nat.add_sub_assoc Nat.one_le_two_pow _
  rw [hone, Nat.testBit_and, Nat.testBit_two_pow_mul_add _ hlt,
    Nat.testBit_two_pow_mul_add _ (Nat.lt_of_le_of_lt (Nat.sub_le _ _) hlt)]
  -- above the lowest bit the two are alike; up to it they have no bit in common
  by_cases hk : k < t + 1
  · rw [if_pos hk, if_pos hk, Nat.testBit_two_pow, Nat.testBit_two_pow_sub_one]
    by_cases he : t = k <;> simp [he]
  · have hne : k ≠ t := fun he => hk (he ▸ Nat.lt_succ_self t)
    rw [if_neg hk, if_neg hk, Bool.and_self, decide_eq_true hne, Bool.and_true]

theorem testBit_lowest (h : w ≠ 0) : w.toNat.testBit (lowest w) = true :=
  BitVec.getLsbD_true_ctz_of_ne_zero fun e => h (UInt64.toBitVec_inj.1 e)

theorem testBit_of_lt_lowest (h : k < lowest w) : w.toNat.testBit k = false := BitVec.getLsbD_false_of_lt_ctz h

/-- The lowest bit is taken out and no other. -/
theorem testBit_dropLowest (h : w ≠ 0) (k : Nat) :
    (dropLowest w).toNat.testBit k = (w.toNat.testBit k && decide (k ≠ lowest w)) := by
  rw [toNat_dropLowest h, eq_of_lowest (testBit_lowest h) fun _ => testBit_of_lt_lowest]
  exact testBit_and_sub_one _ _ k

/-! ## Bits of a word -/

theorem lt_of_testBit (h : w.toNat.testBit k = true) : k < 64 := by
  by_contra hk
  have hw : w.toNat < 2 ^ k := Nat.lt_of_lt_of_le w.toNat_lt (Nat.pow_le_pow_right (by decide) (Nat.not_lt.1 hk))
  rw [Nat.testBit_lt_two_pow hw] at h
  cases h

theorem mem_positions (w : UInt64) (k : Nat) : k ∈ positions w ↔ w.toNat.testBit k = true := by
  fun_induction positions w with
  | case1 => simp
  | case2 w h ih =>
    rw [List.mem_cons, ih, testBit_dropLowest h, Bool.and_eq_true, decide_eq_true_eq]
    constructor
    · rintro (rfl | ⟨hk, -⟩)
      · exact testBit_lowest h
      · exact hk
    · intro hk
      by_cases he : k = lowest w
      · exact .inl he
      · exact .inr ⟨hk, he⟩

theorem positions_increasing (w : UInt64) : (positions w).Pairwise (· < ·) := by
  fun_induction positions w with
  | case1 => exact .nil
  | case2 w h ih =>
    refine List.pairwise_cons.2 ⟨fun k hk => ?_, ih⟩
    rw [mem_positions, testBit_dropLowest h, Bool.and_eq_true, decide_eq_true_eq] at hk
    obtain ⟨hbit, hne⟩ := hk
    have hle : lowest w ≤ k := Nat.not_lt.1 fun hlt => by
      rw [testBit_of_lt_lowest hlt] at hbit
      cases hbit
    exact Nat.lt_of_le_of_ne hle (Ne.symm hne)

/-- Taking out lowest bits comes by the bits that are set, in their order. -/
theorem positions_eq (w : UInt64) : positions w = (List.range 64).filter w.toNat.testBit := by
  refine (positions_increasing w).eq_of_mem_iff (List.pairwise_lt_range.filter _) fun k => ?_
  rw [mem_positions, List.mem_filter, List.mem_range]
  exact ⟨fun h => ⟨lt_of_testBit h, h⟩, And.right⟩

theorem cpopNatRec_eq {n : Nat} (x : BitVec n) (k : Nat) :
    x.cpopNatRec k 0 = ((List.range k).filter x.getLsbD).length := by
  induction k with
  | zero => rfl
  | succ k ih =>
    rw [BitVec.cpopNatRec_succ, BitVec.cpopNatRec_add, ih, List.range_succ, List.filter_append, List.length_append]
    cases hk : x.getLsbD k <;> simp [hk]

theorem popCount_eq (w : UInt64) : popCount w = (positions w).length := by
  rw [positions_eq, popCount, BitVec.toNat_cpop]
  exact cpopNatRec_eq w.toBitVec 64

end Word

/-! ## Members of a bit set -/

section Members

variable {words : List UInt64} {w : UInt64} {s : BitSet} {size i k : Nat}

theorem toList_concat (words : List UInt64) (w : UInt64) (size : Nat) :
    toList ⟨words ++ [w], size⟩ = toList ⟨words, size⟩ ++ (positions w).map (words.length * 64 + ·) := by
  simp [toList, List.zipIdx_append]

theorem get_concat_of_lt (h : i < words.length * 64) : get ⟨words ++ [w], size⟩ i = get ⟨words, size⟩ i := by
  have hword : i / 64 < words.length := (Nat.div_lt_iff_lt_mul (by decide)).2 h
  rw [get_eq_testBit, get_eq_testBit, List.getD_append _ _ _ _ hword]

theorem get_concat_last (h : k < 64) : get ⟨words ++ [w], size⟩ (words.length * 64 + k) = w.toNat.testBit k := by
  have hword : (words.length * 64 + k) / 64 = words.length := by omega
  have hbit : (words.length * 64 + k) % 64 = k := by omega
  rw [get_eq_testBit, hword, hbit, List.getD_append_right _ _ _ _ (Nat.le_refl _), Nat.sub_self]
  rfl

/-- The members listed are the indices whose bit is set. -/
theorem toList_eq (s : BitSet) : s.toList = (List.range (s.words.length * 64)).filter s.get := by
  obtain ⟨words, size⟩ := s
  -- the last word lists the last 64 indices
  induction words using List.reverseRecOn with
  | nil => rfl
  | append_singleton words w ih =>
    have hbefore : (List.range (words.length * 64)).filter (get ⟨words ++ [w], size⟩) =
        toList ⟨words, size⟩ := by
      rw [ih]
      exact List.filter_congr fun i hi => get_concat_of_lt (List.mem_range.1 hi)
    have hlast : (List.range 64).filter (get ⟨words ++ [w], size⟩ ∘ (words.length * 64 + ·)) = positions w := by
      rw [positions_eq]
      exact List.filter_congr fun k hk => get_concat_last (List.mem_range.1 hk)
    rw [toList_concat, List.length_append, List.length_singleton, Nat.succ_mul, List.range_add, List.filter_append,
      List.filter_map, hbefore, hlast]

/-- An index whose bit is set has a word. -/
theorem lt_of_get (h : s.get i = true) : i < s.words.length * 64 := by
  by_contra hi
  have hout : s.words.length ≤ i / 64 := (Nat.le_div_iff_mul_le (by decide)).2 (Nat.not_lt.1 hi)
  rw [get_eq_testBit, List.getD_eq_default _ _ hout, UInt64.toNat_zero, Nat.zero_testBit] at h
  cases h

theorem mem_toList (s : BitSet) (i : Nat) : i ∈ s.toList ↔ s.get i = true := by
  rw [toList_eq, List.mem_filter, List.mem_range]
  exact ⟨And.right, fun h => ⟨lt_of_get h, h⟩⟩

theorem toList_increasing (s : BitSet) : s.toList.Pairwise (· < ·) :=
  toList_eq s ▸ List.pairwise_lt_range.filter s.get

/-- As many are counted as are listed. -/
theorem count_eq (s : BitSet) : s.count = s.toList.length := by
  obtain ⟨words, size⟩ := s
  induction words using List.reverseRecOn with
  | nil => rfl
  | append_singleton words w ih =>
    calc count ⟨words ++ [w], size⟩
      _ = count ⟨words, size⟩ + popCount w := List.foldl_concat _ _ _ _
      _ = (toList ⟨words, size⟩).length + (positions w).length := by rw [ih, popCount_eq]
      _ = (toList ⟨words ++ [w], size⟩).length := by rw [toList_concat, List.length_append, List.length_map]

end Members

/-! ## Indices that have a word -/

section Checked

variable {s : BitSet} {i : Nat}

theorem get?_eq (h : i / 64 < s.words.length) : s.get? i = some (s.get i) := by
  rw [get?, get, List.getElem?_eq_getElem h, Option.map_some, List.getD_eq_getElem _ _ h]

theorem set?_eq (h : i / 64 < s.words.length) : s.set? i = some (s.set i) := by
  rw [set?, set, List.getElem?_eq_getElem h, Option.map_some, List.modify_eq_set_get _ h]
  rfl

theorem insert?_eq (h : i / 64 < s.words.length) : s.insert? i = some (s.insert i) := by
  rw [insert?, get?_eq h, set?_eq h]
  rfl

/-- Planning puts a step in by an insertion, and passes over one that was in already. -/
theorem add?_eq (s : BitSet) (i : Nat) : s.add? i = (s.insert? i).bind fun r => if r.1 then some r.2 else none := by
  unfold add?
  by_cases h : i / 64 < s.words.length
  · simp [insert?_eq h, insert, h]
  · have hnone : s.get? i = none := by rw [get?, List.getElem?_eq_none (Nat.not_lt.1 h), Option.map_none]
    simp [insert?, hnone, h]

end Checked

/-! ## Histories -/

/-- What is done to a bit set. -/
inductive Edit where
  | set (i : Nat)
  | insert (i : Nat)
  | clear
  deriving DecidableEq, Repr

namespace Edit

/-- The index that is put in. -/
def index? : Edit → Option Nat
  | set i | insert i => some i
  | clear => none

def Below (n : Nat) (e : Edit) : Prop := ∀ i ∈ e.index?, i < n

instance (n : Nat) : DecidablePred (Below n) := fun e => inferInstanceAs (Decidable (∀ i ∈ e.index?, i < n))

/-- The members of a finite set once it is edited. -/
def members (A : Finset Nat) : Edit → Finset Nat
  | set i | insert i => Insert.insert i A
  | clear => ∅

/-- What an edit of a finite set answers: an insertion, whether the index was out. -/
def answer? (A : Finset Nat) : Edit → Option Bool
  | insert i => some (decide (i ∉ A))
  | _ => none

/-- The answers of edits one after the other, and the finite set they lead to. -/
def replay (A : Finset Nat) : List Edit → List (Option Bool) × Finset Nat
  | [] => ([], A)
  | e :: es => (e.answer? A :: (replay (e.members A) es).1, (replay (e.members A) es).2)

end Edit

/-- Edit a bit set. -/
def edit? (s : BitSet) : Edit → Option (Option Bool × BitSet)
  | .set i => (s.set? i).map (none, ·)
  | .insert i => (s.insert? i).map fun r => (some r.1, r.2)
  | .clear => some (none, s.clear)

/-- The answers of edits one after the other, and the bit set they lead to; none once an
index has no word. -/
def edits? (s : BitSet) : List Edit → Option (List (Option Bool) × BitSet)
  | [] => some ([], s)
  | e :: es => do
    let (answer, s) ← s.edit? e
    let (answers, s) ← s.edits? es
    return (answer :: answers, s)

section Histories

variable {s : BitSet} {A : Finset Nat} {n i : Nat} {e : Edit} {es : List Edit}

/-- The bits that are set are those of the members, all below the bound. -/
structure Holds (n : Nat) (s : BitSet) (A : Finset Nat) : Prop where
  sized : s.Sized n
  size : s.size = n
  below : ∀ i ∈ A, i < n
  get : ∀ i, s.get i = decide (i ∈ A)

theorem holds_empty (n : Nat) : Holds n (empty n) ∅ where
  sized := sized_empty n
  size := rfl
  below := nofun
  get := fun i => by simp

theorem Holds.set (h : Holds n s A) (hi : i < n) : Holds n (s.set i) (Insert.insert i A) where
  sized := h.sized.set i
  size := h.size
  below := (Finset.forall_mem_insert _ _ _).2 ⟨hi, h.below⟩
  get := fun j => by
    rw [get_set h.sized hi, h.get, ← Bool.decide_or, decide_eq_decide, Finset.mem_insert, or_comm, eq_comm (a := i)]

theorem Holds.clear (h : Holds n s A) : Holds n s.clear ∅ where
  sized := h.sized.clear
  size := h.size
  below := nofun
  get := fun i => by simp

theorem Holds.word (h : Holds n s A) (hi : i < n) : i / 64 < s.words.length := by
  have hlen : s.words.length = (n + 63) / 64 := h.sized
  omega

/-- An edit below the bound answers what the finite set would. -/
theorem Holds.edit (h : Holds n s A) (he : e.Below n) :
    ∃ s', s.edit? e = some (e.answer? A, s') ∧ Holds n s' (e.members A) := by
  cases e with
  | set i =>
    have hi : i < n := he i rfl
    exact ⟨s.set i, by rw [edit?, set?_eq (h.word hi)]; rfl, h.set hi⟩
  | insert i =>
    have hi : i < n := he i rfl
    refine ⟨s.set i, ?_, h.set hi⟩
    rw [edit?, insert?_eq (h.word hi), insert, h.get, ← decide_not]
    rfl
  | clear => exact ⟨s.clear, rfl, h.clear⟩

theorem Holds.edits (h : Holds n s A) (hes : ∀ e ∈ es, e.Below n) :
    ∃ s', s.edits? es = some ((Edit.replay A es).1, s') ∧ Holds n s' (Edit.replay A es).2 := by
  induction es generalizing s A with
  | nil => exact ⟨s, rfl, h⟩
  | cons e es ih =>
    obtain ⟨he, hes⟩ := List.forall_mem_cons.1 hes
    obtain ⟨s₁, hfirst, h₁⟩ := h.edit he
    obtain ⟨s₂, hrest, h₂⟩ := ih h₁ hes
    refine ⟨s₂, ?_, h₂⟩
    simp only [edits?, hfirst, hrest, Option.bind_eq_bind, Option.bind_some]
    rfl

/-- Read in any way, the bit set is this set of indices below the bound. -/
structure StandsFor (n : Nat) (s : BitSet) (A : Finset Nat) : Prop where
  size : s.size = n
  below : ∀ i ∈ A, i < n
  get : ∀ i, s.get i = decide (i ∈ A)
  get? : ∀ i < n, s.get? i = some (decide (i ∈ A))
  count : s.count = A.card
  mem_toList : ∀ i, i ∈ s.toList ↔ i ∈ A
  increasing : s.toList.Pairwise (· < ·)

theorem Holds.standsFor (h : Holds n s A) : StandsFor n s A := by
  have hmem : ∀ i, i ∈ s.toList ↔ i ∈ A := fun i => by rw [BitSet.mem_toList, h.get, decide_eq_true_eq]
  have hA : s.toList.toFinset = A := Finset.ext fun i => List.mem_toFinset.trans (hmem i)
  refine ⟨h.size, h.below, h.get, fun i hi => ?_, ?_, hmem, toList_increasing s⟩
  · rw [get?_eq (h.word hi), h.get]
  · rw [count_eq, ← hA, List.toFinset_card_of_nodup ((toList_increasing s).imp Nat.ne_of_lt)]

/-- Whatever is put in below a bound and cleared in between, a bit set answers as a finite
set would, and reads as the one that is left. -/
theorem stands_for_finset (n : Nat) (es : List Edit) (h : ∀ e ∈ es, e.Below n) :
    ∃ s, (empty n).edits? es = some ((Edit.replay ∅ es).1, s) ∧ StandsFor n s (Edit.replay ∅ es).2 := by
  obtain ⟨s, hs, hholds⟩ := (holds_empty n).edits h
  exact ⟨s, hs, hholds.standsFor⟩

/-- Indices on both sides of where words meet, some before a clearing and some twice. -/
def threeWords : List Edit :=
  [.insert 5, .set 64, .clear, .set 129, .insert 64, .insert 63, .set 0, .insert 64, .insert 5, .set 63]

/-- All that was put in since the clearing is there, and only 64 was put in a second time. -/
theorem word_ends : (∀ e ∈ threeWords, e.Below 130) ∧ ∃ s, (empty 130).edits? threeWords =
      some ([some true, none, none, none, some true, some true, none, some false, some true, none], s) ∧
    StandsFor 130 s {0, 5, 63, 64, 129} ∧ s.count = 5 ∧ s.toList = [0, 5, 63, 64, 129] := by
  have hbelow : ∀ e ∈ threeWords, e.Below 130 := by decide
  have hset : (Edit.replay ∅ threeWords).2 = {0, 5, 63, 64, 129} := by decide
  obtain ⟨s, hs, hstands⟩ := stands_for_finset 130 threeWords hbelow
  rw [hset] at hstands
  refine ⟨hbelow, s, hs, hstands, hstands.count, ?_⟩
  exact hstands.increasing.eq_of_mem_iff (by decide) fun i => by rw [hstands.mem_toList]; simp

end Histories

end Settle.BitSet
