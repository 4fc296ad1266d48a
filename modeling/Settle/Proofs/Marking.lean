/-
  Settle.Proofs.Marking — marks tell overlap, on the shortcut too (see
  `Settle.Plan.Wiring`).

  Ids are marked and the marks are cleared, in any order. A step is touched exactly when an
  id marked since the marks were cleared last has a path that overlaps what the step writes
  or depends on (`marks_tell`). Where every path has one segment the chains of ancestors are
  passed over, on both sides: a path is its only ancestor there (`chain_eq_singleton`), so
  the two sets of marks are one set and the long way finds nothing else.
-/

import Settle.Proofs.Flat
import Settle.Proofs.Sorting

namespace Settle

namespace Wiring

/-- The same tables, without the shortcut for paths of one segment. -/
def long (w : Wiring) : Wiring := { w with shallow := false }

@[simp] theorem long_shallow (w : Wiring) : w.long.shallow = false := rfl

@[simp] theorem long_chain (w : Wiring) : w.long.chain = w.chain := rfl

@[simp] theorem long_inputsOf (w : Wiring) : w.long.inputsOf = w.inputsOf := rfl

end Wiring

namespace Marks

/-! ## Marking and clearing -/

/-- What is done with the marks of so many ids. -/
inductive Act (n : Nat) where
  | clear
  | mark (p : Fin n)

def Act.run {n : Nat} (w : Wiring) (m : Marks) : Act n → Marks
  | .clear => m.clear
  | .mark p => m.mark w p

/-- The marks after all this, from none on. -/
def after {n : Nat} (w : Wiring) (acts : List (Act n)) : Marks := acts.foldl (Act.run w) (.empty w)

theorem after_concat {n : Nat} (w : Wiring) (acts : List (Act n)) (a : Act n) :
    after w (acts ++ [a]) = a.run w (after w acts) := List.foldl_concat ..

/-- The id was marked, and the marks were not cleared since. -/
def Marked {n : Nat} (acts : List (Act n)) (i : Fin n) : Prop :=
  ∃ before later, acts = before ++ .mark i :: later ∧ .clear ∉ later

section

variable {n : Nat} {acts : List (Act n)} {i p : Fin n}

theorem not_marked_clear : ¬ Marked (acts ++ [.clear]) i := by
  rintro ⟨before, later, he, hlater⟩
  rcases List.eq_nil_or_concat later with rfl | ⟨later, a, rfl⟩
  · cases (List.append_inj' he rfl).2
  · rw [List.concat_eq_append, ← List.cons_append, ← List.append_assoc] at he
    obtain rfl : a = .clear := (List.cons.inj (List.append_inj' he rfl).2).1.symm
    simp at hlater

theorem marked_mark : Marked (acts ++ [.mark p]) i ↔ Marked acts i ∨ i = p := by
  constructor
  · rintro ⟨before, later, he, hlater⟩
    rcases List.eq_nil_or_concat later with rfl | ⟨later, a, rfl⟩
    · cases (List.append_inj' he rfl).2
      exact .inr rfl
    · rw [List.concat_eq_append] at he hlater
      rw [← List.cons_append, ← List.append_assoc] at he
      exact .inl ⟨before, later, (List.append_inj' he rfl).1, fun h => hlater (List.mem_append_left _ h)⟩
  · rintro (⟨before, later, rfl, hlater⟩ | rfl)
    · exact ⟨before, later ++ [.mark p], by simp, by simp [hlater]⟩
    · exact ⟨acts, [], rfl, List.not_mem_nil⟩

end

/-- Marks are of the ids marked since they were cleared. -/
theorem of_after {g : Graph} {w : Wiring} (h : Wired g w) (acts : List (Act g.table.size)) :
    ∃ ids, Of g (after w acts) ids ∧ ∀ i : Fin g.table.size, i.val ∈ ids ↔ Marked acts i := by
  induction acts using List.reverseRecOn with
  | nil => exact ⟨[], of_empty h, fun i => by simp [Marked]⟩
  | append_singleton acts a ih =>
    obtain ⟨ids, hof, hids⟩ := ih
    rw [after_concat]
    cases a with
    | clear => exact ⟨[], hof.clear, fun i => by simp [not_marked_clear]⟩
    | mark p =>
      refine ⟨ids ++ [p.val], hof.mark h p.isLt, fun i => ?_⟩
      rw [List.mem_append, List.mem_singleton, hids, marked_mark, Fin.val_inj]

/-! ## Paths of one segment -/

section

variable {g : Graph} {w : Wiring}

theorem depth_le_one_iff {t : PathTable} : t.depth ≤ 1 ↔ ∀ p ∈ t.paths, p.length = 1 := by
  have hpos : ∀ p : Path, 1 ≤ p.length := fun p => List.length_pos_iff.2 p.nonempty
  constructor
  · intro hd p hp
    exact Nat.le_antisymm ((PathTable.foldl_max_le hd).2 p hp) (hpos p)
  · intro hone
    have hfold : ∀ (l : List Path) (n : Nat), (∀ p ∈ l, p.length = 1) → n ≤ 1 →
        l.foldl (fun n p => max n p.length) n ≤ 1 := by
      intro l
      induction l with
      | nil => exact fun n _ hn => hn
      | cons p l ih =>
        intro n hl hn
        have hp := Nat.le_of_eq (hl p List.mem_cons_self)
        exact ih _ (fun q hq => hl q (List.mem_cons_of_mem p hq)) (Nat.max_le.2 ⟨hn, hp⟩)
    exact hfold t.paths 0 hone (Nat.zero_le 1)

/-- A path of one segment is its only ancestor. -/
theorem chain_eq_singleton (h : Wired g w) (hone : ∀ p ∈ g.table.paths, p.length = 1) {i : PathId}
    (hi : i < g.table.size) : w.chain i = [i] := by
  obtain ⟨p, hp⟩ := PathTable.exists_path? hi
  have hancestry : p.ancestry = [p] := by
    have hlen : p.length = 1 := hone p (PathTable.mem_of_path? hp)
    have htake : p.take? 1 = some p :=
      Path.take?_eq_some.2 ⟨List.take_of_length_le (Nat.le_of_eq hlen), Nat.le_of_eq hlen.symm⟩
    simp [Path.ancestry, hlen, List.range_one, htake]
  rw [h.chain_eq hi, PathTable.chain, hp]
  simp [hancestry, h.graph.table.id?_of_path? hp]

/-- Then the long way marks the same, and the two sets of marks are the same. -/
theorem after_long (h : Wired g w) (hone : ∀ p ∈ g.table.paths, p.length = 1) (acts : List (Act g.table.size)) :
    after w.long acts = after w acts ∧ (after w acts).ancestors = (after w acts).roots := by
  have hshallow : w.shallow = true := h.shallow_iff.2 (depth_le_one_iff.2 hone)
  induction acts using List.reverseRecOn with
  | nil => exact ⟨rfl, rfl⟩
  | append_singleton acts a ih =>
    obtain ⟨hsame, hsets⟩ := ih
    rw [after_concat, after_concat, hsame]
    cases a with
    | clear =>
      refine ⟨rfl, ?_⟩
      rw [Act.run, Marks.clear, hsets]
    | mark p =>
      simp [Act.run, Marks.mark, chain_eq_singleton h hone p.isLt, hshallow, hsets]

theorem touchesStep_long (h : Wired g w) (hone : ∀ p ∈ g.table.paths, p.length = 1) {m : Marks}
    (hm : m.ancestors = m.roots) (k : StepId) : m.touchesStep w.long k = m.touchesStep w k := by
  have hshallow : w.shallow = true := h.shallow_iff.2 (depth_le_one_iff.2 hone)
  have hinput : ∀ x ∈ w.inputsOf k, m.touches w.long x = m.touches w x := by
    intro x hx
    have hlt : x < g.table.size := by
      cases hs : g.step? k with
      | none =>
        rw [h.inputsOf_of_none hs] at hx
        cases hx
      | some s =>
        rw [h.inputsOf_eq hs] at hx
        obtain ⟨q, hq⟩ := h.input_path hs hx
        exact PathTable.lt_size hq
    simp [touches, chain_eq_singleton h hone hlt, hm, hshallow]
  rw [touchesStep, touchesStep, Wiring.long_inputsOf, Bool.eq_iff_iff, List.any_eq_true, List.any_eq_true]
  exact exists_congr fun x => and_congr_right fun hx => by rw [hinput x hx]

end

/-! ## Overlap -/

/-- What the marks of a graph tell of a step after ids were marked and the marks cleared. -/
structure Tell (g : Graph) (acts : List (Act g.table.size)) (k : StepId) : Prop where
  /-- The step is touched when the path of an id marked since the marks were cleared last
  overlaps the path it writes or one that it depends on. -/
  overlap : (after (.ofGraph g) acts).touchesStep (.ofGraph g) k = true ↔
    ∃ i p s q, Marked acts i ∧ g.table.path? i = some p ∧ g.step? k = some s ∧
      (g.table.path? s.out = some q ∨ ∃ dep ∈ s.deps, g.table.path? dep = some q) ∧ q.overlaps p = true
  /-- The shortcut is for graphs in which every path has one segment. -/
  shortcut : (Wiring.ofGraph g).shallow = true ↔ ∀ p ∈ g.table.paths, p.length = 1
  /-- The long way marks the same there. -/
  marks : (Wiring.ofGraph g).shallow = true → after (Wiring.ofGraph g).long acts = after (.ofGraph g) acts
  /-- The long way finds the same, whichever way the ids were marked. -/
  long : ∀ w ∈ [.ofGraph g, (Wiring.ofGraph g).long],
    (after w acts).touchesStep (Wiring.ofGraph g).long k = (after (.ofGraph g) acts).touchesStep (.ofGraph g) k

/-- Marks tell of every step whether its inputs overlap what was marked, and the shortcut
for paths of one segment tells the same. -/
theorem marks_tell {d : Declaration} {n : Nat} {g : Graph} (hc : Graph.compile d n = .ok g)
    (acts : List (Act g.table.size)) (k : StepId) : Tell g acts k := by
  have h : Wired g (.ofGraph g) := ⟨Graph.compile_wellFormed hc, rfl⟩
  have hshortcut := h.shallow_iff.trans depth_le_one_iff
  constructor
  case overlap =>
    obtain ⟨ids, hof, hids⟩ := of_after h acts
    rw [hof.touchesStep_iff h]
    simp only [Graph.moves_iff]
    constructor
    · rintro ⟨i, hi, p, hp, s, q, hs, hq, ho⟩
      exact ⟨⟨i, hof.lt i hi⟩, p, s, q, (hids _).1 hi, hp, hs, hq, ho⟩
    · rintro ⟨i, p, s, q, hi, hp, hs, hq, ho⟩
      exact ⟨i, (hids i).2 hi, p, hp, s, q, hs, hq, ho⟩
  case shortcut => exact hshortcut
  case marks => exact fun hs => (after_long h (hshortcut.1 hs) acts).1
  case long =>
    cases hs : (Wiring.ofGraph g).shallow with
    | false =>
      have hlong : (Wiring.ofGraph g).long = .ofGraph g := by rw [Wiring.long, ← hs]
      intro w hw
      rw [hlong] at hw ⊢
      obtain rfl : w = .ofGraph g := by simpa using hw
      rfl
    | true =>
      have hone := hshortcut.1 hs
      obtain ⟨hsame, hsets⟩ := after_long h hone acts
      intro w hw
      have hw : after w acts = after (.ofGraph g) acts := by
        rcases List.mem_cons.1 hw with rfl | hw
        · rfl
        · rw [List.mem_singleton.1 hw, hsame]
      rw [hw]
      exact touchesStep_long h hone hsets k

end Marks

/-! ## Marks above and below, and marks of one segment -/

open Marks (Act after)

namespace Profile

/-- The total is marked, the marks are cleared, and the name is marked. -/
def renamed : List (Act graph.table.size) := [.mark ⟨5, by decide⟩, .clear, .mark ⟨7, by decide⟩]

/-- The name touches the step that copies a field in it and the one that reads the object
around it; the step that writes the total is touched no more. In the graph of the knot every
path has one segment, and a mark at `s` touches the step that reads it. -/
theorem renamed_tells : Graph.compile declaration 1 = .ok graph ∧ (∀ k, Marks.Tell graph renamed k) ∧
    [0, 1, 2].map ((after (.ofGraph graph) renamed).touchesStep (.ofGraph graph)) = [true, true, false] ∧
    Graph.compile Knot.declaration 1 = .ok Knot.graph ∧ (Wiring.ofGraph Knot.graph).shallow = true ∧
    ∀ k, Marks.Tell Knot.graph [.mark ⟨3, by decide⟩] k :=
  ⟨compile_eq, Marks.marks_tell compile_eq renamed, by cbv, Knot.compile_eq, by decide,
    Marks.marks_tell Knot.compile_eq _⟩

end Profile

end Settle
