/-
  Settle.Proofs.BitSet — bit sets as sets of indices (see `Settle.Plan.BitSet`).
-/

import Mathlib
import Settle.Plan.BitSet

namespace Settle.BitSet

/-- The words are those of the indices below a bound. -/
def Sized (s : BitSet) (n : Nat) : Prop := s.words.length = (n + 63) / 64

theorem sized_empty (n : Nat) : (empty n).Sized n := by simp [Sized, empty]

theorem Sized.set {s : BitSet} {n : Nat} (h : s.Sized n) (i : Nat) : (s.set i).Sized n := by
  simpa [Sized, BitSet.set] using h

theorem Sized.clear {s : BitSet} {n : Nat} (h : s.Sized n) : s.clear.Sized n := by
  simpa [Sized, BitSet.clear] using h

theorem clear_set (s : BitSet) (i : Nat) : (s.set i).clear = s.clear := by
  simp only [clear, set, BitSet.mk.injEq, and_true]
  exact List.ext_getElem (by simp) (by simp)

theorem clear_foldl_set (l : List Nat) (s : BitSet) : (l.foldl set s).clear = s.clear := by
  induction l generalizing s with
  | nil => rfl
  | cons i l ih => rw [List.foldl_cons, ih, clear_set]

/-! ## Words -/

theorem toNat_bit (i : Nat) : (bit i).toNat = 2 ^ (i % 64) := by
  have h : i % 64 < 64 := Nat.mod_lt _ (by decide)
  have hp : 2 ^ (i % 64) < 2 ^ 64 := Nat.pow_lt_pow_right (by decide) h
  simp only [bit, Nat.toUInt64_eq, UInt64.toNat_shiftLeft, UInt64.toNat_ofNat, Nat.reducePow, Nat.one_mod,
    UInt64.toNat_ofNat', Nat.reduceDvd, Nat.mod_mod_of_dvd, Nat.dvd_refl, Nat.one_shiftLeft]
  exact Nat.mod_eq_of_lt hp

/-- The bit of an index is in a word when that bit is set. -/
theorem and_bit_ne_zero (w : UInt64) (i : Nat) : (w &&& bit i != 0) = w.toNat.testBit (i % 64) := by
  have hk : ∀ k, (w &&& bit i).toNat.testBit k = (w.toNat.testBit k && decide (i % 64 = k)) := fun k => by
    rw [UInt64.toNat_and, toNat_bit, Nat.testBit_and, Nat.testBit_two_pow]
  cases h : w.toNat.testBit (i % 64) with
  | true =>
    refine bne_iff_ne.2 fun e => ?_
    have := hk (i % 64)
    rw [e, h] at this
    simp at this
  | false =>
    refine bne_eq_false_iff_eq.2 (UInt64.toNat_inj.1 (Nat.eq_of_testBit_eq fun k => ?_))
    rw [hk]
    by_cases e : i % 64 = k
    · simp [← e, h]
    · simp [e]

theorem testBit_or_bit (w : UInt64) (i k : Nat) :
    (w ||| bit i).toNat.testBit k = (w.toNat.testBit k || decide (i % 64 = k)) := by
  rw [UInt64.toNat_or, toNat_bit, Nat.testBit_or, Nat.testBit_two_pow]

/-! ## Members -/

theorem get_eq_testBit (s : BitSet) (i : Nat) : s.get i = (s.words.getD (i / 64) 0).toNat.testBit (i % 64) :=
  and_bit_ne_zero _ i

@[simp] theorem get_empty (n i : Nat) : (empty n).get i = false := by
  rw [get_eq_testBit, empty, List.getD_eq_getElem?_getD, List.getElem?_replicate]
  split <;> simp

@[simp] theorem get_clear (s : BitSet) (i : Nat) : s.clear.get i = false := by
  rw [get_eq_testBit, clear, List.getD_eq_getElem?_getD, List.getElem?_map]
  cases s.words[i / 64]? <;> simp

/-- Setting an index puts in that one and no other. -/
theorem get_set {s : BitSet} {n i : Nat} (hs : s.Sized n) (hi : i < n) (j : Nat) :
    (s.set i).get j = (s.get j || decide (i = j)) := by
  have hlen : i / 64 < s.words.length := by rw [hs]; omega
  rw [get_eq_testBit, get_eq_testBit, set, List.getD_eq_getElem?_getD, List.getD_eq_getElem?_getD]
  by_cases hw : i / 64 = j / 64
  · rw [← hw, List.getElem?_modify_eq, List.getElem?_eq_getElem hlen]
    simp only [Option.map_eq_map, Option.map_some, Option.getD_some, testBit_or_bit]
    have hij : i % 64 = j % 64 ↔ i = j := ⟨fun h => by omega, fun h => by rw [h]⟩
    simp only [hij]
  · have hne : i ≠ j := fun e => hw (e ▸ rfl)
    simp [List.getElem?_modify_ne _ _ hw, hne]

end Settle.BitSet
