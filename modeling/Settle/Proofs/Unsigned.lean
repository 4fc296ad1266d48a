/-
  Settle.Proofs.Unsigned — values that count as the same (see `Settle.Value`).

  Values count as the same when they are equal once every zero has lost its sign
  (`same_iff`). Losing signs commutes with reading and with writing fields, so states
  that count as the same stay so under writes that do, and read alike but for the signs
  of zeros.
-/

import Settle.Proofs.Settled

namespace Settle

/-- A double, without the sign of a zero. -/
def Double.unsigned (d : Double) : Double := if d.isZero then .zero else d

theorem Double.same_iff {a b : Double} : a.same b = true ↔ a.unsigned = b.unsigned := by
  have hbits : ∀ {a b : Double}, a.bits = b.bits → a = b := by
    intro ⟨_, _⟩ ⟨_, _⟩ h
    cases h
    rfl
  simp only [same, Bool.or_eq_true, beq_iff_eq, Bool.and_eq_true]
  unfold unsigned
  by_cases ha : a.isZero = true <;> by_cases hb : b.isZero = true
  · simp [ha, hb]
  · have hne : a.bits ≠ b.bits := fun e => hb (hbits e ▸ ha)
    have hzero : zero ≠ b := fun e => hb (e ▸ rfl)
    simp [ha, hb, hne, hzero]
  · have hne : a.bits ≠ b.bits := fun e => ha (hbits e ▸ hb)
    have hzero : a ≠ zero := fun e => ha (e ▸ rfl)
    simp [ha, hb, hne, hzero]
  · simp only [ha, hb, Bool.false_eq_true, and_self, or_false, if_false]
    exact ⟨hbits, congrArg bits⟩

namespace Value

mutual
/-- The value with no zero signed. -/
def unsigned : Value → Value
  | .null => .null
  | .bool b => .bool b
  | .int i => .int i
  | .double d => .double d.unsigned
  | .str s => .str s
  | .arr items => .arr (unsignedItems items)
  | .obj fields => .obj (unsignedFields fields)
def unsignedItems : List Value → List Value
  | [] => []
  | v :: rest => v.unsigned :: unsignedItems rest
def unsignedFields : List (String × Value) → List (String × Value)
  | [] => []
  | (k, v) :: rest => (k, v.unsigned) :: unsignedFields rest
end

mutual
/-- Two values count as the same exactly when they differ in signs of zeros alone. -/
theorem same_iff : {a b : Value} → (a.same b = true ↔ a.unsigned = b.unsigned)
  | .null, b => by cases b <;> simp [same, unsigned]
  | .bool _, b => by cases b <;> simp [same, unsigned]
  | .int _, b => by cases b <;> simp [same, unsigned]
  | .double _, b => by cases b <;> simp [same, unsigned, Double.same_iff]
  | .str _, b => by cases b <;> simp [same, unsigned]
  | .arr items, b => by
    cases b with
    | arr _ =>
      rw [same, unsigned, unsigned, arr.injEq]
      exact sameItems_iff
    | _ => simp [same, unsigned]
  | .obj fields, b => by
    cases b with
    | obj _ =>
      rw [same, unsigned, unsigned, obj.injEq]
      exact sameFields_iff
    | _ => simp [same, unsigned]
theorem sameItems_iff : {as bs : List Value} → (sameItems as bs = true ↔ unsignedItems as = unsignedItems bs)
  | [], [] => by simp [sameItems]
  | [], _ :: _ => by simp [sameItems, unsignedItems]
  | _ :: _, [] => by simp [sameItems, unsignedItems]
  | a :: as, b :: bs => by
    rw [sameItems, Bool.and_eq_true, unsignedItems, unsignedItems, List.cons.injEq, same_iff, sameItems_iff]
theorem sameFields_iff : {as bs : List (String × Value)} →
    (sameFields as bs = true ↔ unsignedFields as = unsignedFields bs)
  | [], [] => by simp [sameFields]
  | [], _ :: _ => by simp [sameFields, unsignedFields]
  | _ :: _, [] => by simp [sameFields, unsignedFields]
  | (k, a) :: as, (l, b) :: bs => by
    rw [sameFields, Bool.and_eq_true, Bool.and_eq_true, beq_iff_eq, unsignedFields, unsignedFields, List.cons.injEq,
      Prod.mk.injEq, same_iff, sameFields_iff]
end

theorem unsignedItems_eq_map (items : List Value) : unsignedItems items = items.map unsigned := by
  induction items with
  | nil => rfl
  | cons v rest ih => rw [unsignedItems, ih, List.map_cons]

theorem get?_unsignedFields (k : String) (fs : Fields) :
    Fields.get? k (unsignedFields fs) = (Fields.get? k fs).map unsigned := by
  induction fs with
  | nil => rfl
  | cons p rest ih =>
    obtain ⟨l, v⟩ := p
    by_cases h : l = k <;> simp [unsignedFields, Fields.get?, h, ih]

theorem unsignedFields_set (k : String) (v : Value) (fs : Fields) :
    unsignedFields (Fields.set k v fs) = Fields.set k v.unsigned (unsignedFields fs) := by
  induction fs with
  | nil => rfl
  | cons p rest ih =>
    obtain ⟨l, u⟩ := p
    by_cases h : l = k
    · simp [unsignedFields, Fields.set, h]
    · by_cases hlt : k < l <;> simp [unsignedFields, Fields.set, h, hlt, ih]

theorem field?_unsigned (node : Value) (k : String) : node.unsigned.field? k = (node.field? k).map unsigned := by
  cases node with
  | obj fs => exact get?_unsignedFields k fs
  | _ => rfl

theorem asArray?_unsigned (node : Value) : node.unsigned.asArray? = node.asArray?.map (·.map unsigned) := by
  cases node with
  | arr items => simp [unsigned, asArray?, unsignedItems_eq_map]
  | _ => rfl

end Value

namespace State

theorem readSegments_unsigned (q : List String) (node : Value) :
    readSegments node.unsigned q = (readSegments node q).map Value.unsigned := by
  induction q generalizing node with
  | nil => rfl
  | cons s q ih =>
    rw [readSegments, readSegments]
    by_cases hs : s = wildcard
    · rw [if_pos hs, if_pos hs, Value.asArray?_unsigned]
      cases node.asArray? with
      | none => rfl
      | some items =>
        have hitem : ∀ item : Value, (readSegments item.unsigned q).getD .null = ((readSegments item q).getD .null).unsigned := by
          intro item
          rw [ih]
          cases readSegments item q <;> rfl
        simp [Value.unsigned, Value.unsignedItems_eq_map, hitem]
    · rw [if_neg hs, if_neg hs, Value.field?_unsigned]
      cases node.field? s with
      | none => rfl
      | some child => exact ih child

theorem read_unsigned (root : Value) (p : Path) : read root.unsigned p = (read root p).map Value.unsigned :=
  readSegments_unsigned p.segments root

end State

end Settle
