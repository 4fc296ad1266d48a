/-
  Settle.Proofs.Resolve — roots told by the ids of a graph (see `DirtySet.resolve`).

  A root that the table lacks is widened to its nearest ancestor there, and roots that
  were apart may come to overlap by that. So the stand-ins are put in order and cleared
  of covered ones again: the ids come out increasing, their paths overlap nowhere
  (`resolve_increasing`, `resolve_apart`), and a step that a root moves is moved by one
  of them. A root is lost only where none of its ancestors is in the table, and then no
  step has a path overlapping it, as the table has all ancestors of the paths of steps.

  `Told` puts this together (`resolve_told`). Walking the tree of the paths gives the
  same ids as searching the table (`locate_eq`).
-/

import Settle.Proofs.Dirty
import Settle.Proofs.Flat

namespace Settle

open DirtySet (roots)

section

variable {t : PathTable} {ps : List Path}

/-- The paths of the table that the roots stand for. -/
def PathTable.standIns (t : PathTable) (ps : List Path) : List Path := (ps.filterMap t.resolve).filterMap t.path?

theorem PathTable.mem_standIns {q : Path} (h : q ∈ t.standIns ps) :
    ∃ p ∈ ps, ∃ i, t.resolve p = some i ∧ t.path? i = some q := by
  obtain ⟨i, hi, hq⟩ := List.mem_filterMap.1 h
  obtain ⟨p, hp, hr⟩ := List.mem_filterMap.1 hi
  exact ⟨p, hp, i, hr, hq⟩

/-- The ids come out in order as they are. -/
theorem resolve_ids (ht : t.WellFormed) (ps : List Path) :
    ((roots ps).resolve t).ids = (Path.roots (t.standIns ps)).filterMap t.id? :=
  mergeSort_nat (.refl _) ((ht.pairwise_ids (Path.pairwise_roots_ne _)).imp Nat.le_of_lt)

theorem resolve_increasing (ht : t.WellFormed) (ps : List Path) : ((roots ps).resolve t).ids.Pairwise (· < ·) := by
  rw [resolve_ids ht]
  exact ht.pairwise_ids (Path.pairwise_roots_ne _)

/-- The paths of the ids overlap nowhere. -/
theorem resolve_apart (ht : t.WellFormed) (ps : List Path) :
    ((roots ps).resolve t).ids.Pairwise fun i j => t.overlap i j = false := by
  rw [resolve_ids ht]
  refine (Path.pairwise_roots _).filterMap _ fun p q hpq i hi j hj => ?_
  rw [PathTable.overlap_iff (PathTable.path?_of_id? hi) (PathTable.path?_of_id? hj)]
  exact hpq.2

theorem mem_resolve (ht : t.WellFormed) {i : PathId} :
    i ∈ ((roots ps).resolve t).ids ↔ ∃ q ∈ Path.roots (t.standIns ps), t.path? i = some q := by
  rw [resolve_ids ht, List.mem_filterMap]
  exact exists_congr fun q => and_congr_right fun _ => ht.id?_iff

/-- A root with an ancestor in the table lies under one of the ids. -/
theorem covered_of_resolve (ht : t.WellFormed) {p : Path} {k : PathId} (hp : p ∈ ps) (hk : t.resolve p = some k) :
    ∃ i ∈ ((roots ps).resolve t).ids, ∃ q, t.path? i = some q ∧ q.covers p := by
  obtain ⟨s, hs, hsp, -⟩ := PathTable.resolve_eq_some hk
  have hmem : s ∈ t.standIns ps := List.mem_filterMap.2 ⟨k, List.mem_filterMap.2 ⟨p, hp, hk⟩, hs⟩
  obtain ⟨q, hq, hqs⟩ := Path.exists_root_covers hmem
  obtain ⟨-, -, i, -, hi⟩ := PathTable.mem_standIns (Path.mem_of_mem_roots hq)
  exact ⟨i, (mem_resolve ht).2 ⟨q, hq, hi⟩, q, hi, Path.covers_trans hqs hsp⟩

/-- Searching the table and walking the tree give the same ids. -/
theorem locate_eq (ht : t.WellFormed) (d : DirtySet) : d.locate (.ofTable t) = d.resolve t := by
  cases d with
  | everything r => rfl
  | roots ps =>
    have hid : (Registry.ofTable t).id? = t.id? := funext (Registry.ofTable_id? ht)
    have hpath : (Registry.ofTable t).path? = t.path? := funext (Registry.ofTable_path? ht)
    have hresolve : (Registry.ofTable t).resolve = t.resolve := funext (Registry.ofTable_resolve ht)
    rw [DirtySet.locate, DirtySet.resolve, hid, hpath, hresolve]

end

/-! ## What is kept of roots -/

namespace Graph

variable {d : Declaration} {n : Nat} {g : Graph} {ps : List Path}

theorem Moves.of_covers {p q : Path} {s : StepId} (h : g.Moves p s) (hq : q.covers p) : g.Moves q s := by
  obtain ⟨step, input, r, hs, hin, hr, ho⟩ := h
  rw [Path.overlaps_comm] at ho
  exact ⟨step, input, r, hs, hin, hr, Path.overlaps_comm q r ▸ Path.overlaps_of_covers hq ho⟩

/-- A path that moves a step has an ancestor in the table. -/
theorem Moves.exists_resolve (ht : g.table.WellFormed) {p : Path} {s : StepId} (h : g.Moves p s) :
    ∃ k, g.table.resolve p = some k := by
  obtain ⟨-, input, r, -, -, hr, ho⟩ := h
  obtain ⟨k, -, hk, -⟩ := ht.resolve_overlaps (PathTable.mem_of_path? hr) (Path.overlaps_comm r p ▸ ho)
  exact ⟨k, hk⟩

/-- What the ids of roots tell of them. -/
structure Told (g : Graph) (ps : List Path) (r : DirtyIds) : Prop where
  narrowed : r.all = none
  increasing : r.ids.Pairwise (· < ·)
  apart : r.ids.Pairwise fun i j => g.table.overlap i j = false
  hash : r.keyHash = Digest.ofIds r.ids
  /-- A step that a root moves is moved by the path of an id. -/
  kept : ∀ p ∈ ps, ∀ s, g.Moves p s → ∃ i ∈ r.ids, ∃ q, g.table.path? i = some q ∧ g.Moves q s
  /-- An id is of a root, or of the nearest registered ancestor of one that is not registered. -/
  origin : ∀ i ∈ r.ids, ∃ q, g.table.path? i = some q ∧ (q ∈ ps ∨
    ∃ p ∈ ps, p ∉ g.table.paths ∧ q.covers p ∧ ∀ a ∈ g.table.paths, a.covers p → a.covers q)
  /-- A root that lies under no id moves no step. -/
  lost : ∀ p ∈ ps, (∃ i ∈ r.ids, ∃ q, g.table.path? i = some q ∧ q.covers p) ∨ ∀ s, ¬ g.Moves p s
  /-- Walking the tree of the paths tells the same. -/
  walked : (roots ps).locate (.ofTable g.table) = r

/-- Told by ids, roots still move every step that they moved. -/
theorem resolve_told (hc : compile d n = .ok g) (ps : List Path) : g.Told ps ((roots ps).resolve g.table) := by
  have ht := (compile_wellFormed hc).table
  constructor
  case narrowed => rfl
  case increasing => exact resolve_increasing ht ps
  case apart => exact resolve_apart ht ps
  case hash => rfl
  case kept =>
    intro p hp s hs
    obtain ⟨k, hk⟩ := hs.exists_resolve ht
    obtain ⟨i, hi, q, hq, hcov⟩ := covered_of_resolve ht hp hk
    exact ⟨i, hi, q, hq, hs.of_covers hcov⟩
  case origin =>
    intro i hi
    obtain ⟨q, hq, hiq⟩ := (mem_resolve ht).1 hi
    obtain ⟨p, hp, k, hk, hkq⟩ := PathTable.mem_standIns (Path.mem_of_mem_roots hq)
    obtain ⟨q', hq', hcov, hnearest⟩ := PathTable.resolve_eq_some hk
    obtain rfl : q = q' := Option.some.inj (hkq.symm.trans hq')
    refine ⟨q, hiq, ?_⟩
    by_cases hmem : p ∈ g.table.paths
    · -- a root of the table stands for itself
      exact .inl (Path.covers_antisymm hcov (hnearest p hmem (Path.covers_refl p)) ▸ hp)
    · exact .inr ⟨p, hp, hmem, hcov, hnearest⟩
  case lost =>
    intro p hp
    cases hk : g.table.resolve p with
    | none =>
      refine .inr fun s hs => ?_
      obtain ⟨k, hk'⟩ := hs.exists_resolve ht
      cases hk.symm.trans hk'
    | some k => exact .inl (covered_of_resolve ht hp hk)
  case walked => exact locate_eq ht _

end Graph

namespace Profile

def nameSuffix : Path := ⟨["u", "n", "f", "z"], by decide⟩

def userKind : Path := ⟨["u", "k"], by decide⟩

def stranger : Path := ⟨["x", "y"], by decide⟩

/-- Of four roots apart from each other, two are widened, and one of these then lies under
the other; one keeps its id, and one moves no step. -/
theorem widened_told : Graph.compile declaration 1 = .ok graph ∧
    graph.Told [total, userKind, nameSuffix, stranger] ⟨[5, 6], none⟩ := by
  have hids : (roots [total, userKind, nameSuffix, stranger]).resolve graph.table = ⟨[5, 6], none⟩ := by cbv
  exact ⟨compile_eq, hids ▸ Graph.resolve_told compile_eq _⟩

end Profile

end Settle
