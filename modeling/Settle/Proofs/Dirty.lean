/-
  Settle.Proofs.Dirty — what a dirty set touches (see `Settle.Dirty`).

  A set touches a path when a root of it overlaps the path; the set of everything
  touches every path. Putting roots in, taking the union and telling a set by the ids of
  a table keep every path of the table touched that was. In the same way a root stays
  covered, by itself or by one that it made way for (`Within`).
-/

import Settle.Dirty
import Settle.Proofs.PathTable

namespace Settle

namespace DirtySet

/-- A root of the set overlaps the path, or everything is dirty. -/
def touches : DirtySet → Path → Bool
  | .roots ps, p => ps.any (·.overlaps p)
  | .everything _, _ => true

theorem touches_roots {ps : List Path} {p : Path} : (roots ps).touches p = true ↔ ∃ r ∈ ps, r.overlaps p := by
  simp [touches]

@[simp] theorem touches_everything (r : DirtyReason) (p : Path) : (everything r).touches p = true := rfl

@[simp] theorem touches_empty (p : Path) : empty.touches p = false := rfl

theorem touches_of_isEmpty {d : DirtySet} (h : d.isEmpty) (p : Path) : d.touches p = false := by
  cases d with
  | roots ps =>
    obtain rfl : ps = [] := List.isEmpty_iff.1 h
    rfl
  | everything r => cases h

theorem mem_insertRoot {p r : Path} {ps : List Path} (hp : ps.any (·.covers p) = false) :
    r ∈ insertRoot p ps ↔ r = p ∨ r ∈ ps ∧ ¬ p.covers r := by
  simp only [insertRoot, hp, Bool.false_eq_true, if_false, List.mem_append, List.mem_cons]
  rw [or_left_comm, ← List.mem_append, List.takeWhile_append_dropWhile, List.mem_filter, Bool.not_eq_true',
    ← Bool.not_eq_true]

/-- What a path has that all paths under it have is had by a root after a root is put in,
when it was had before or the new root has it. -/
theorem exists_insertRoot {P : Path → Prop} (hP : ∀ {p r : Path}, p.covers r = true → P r → P p) {p : Path}
    {ps : List Path} : (∃ r ∈ insertRoot p ps, P r) ↔ (∃ r ∈ ps, P r) ∨ P p := by
  cases hp : ps.any (·.covers p) with
  | true =>
    obtain ⟨r, hr, hc⟩ := List.any_eq_true.1 hp
    rw [insertRoot, if_pos hp]
    refine ⟨.inl, ?_⟩
    rintro (hold | hnew)
    · exact hold
    · exact ⟨r, hr, hP hc hnew⟩
  | false =>
    simp only [mem_insertRoot hp]
    constructor
    · rintro ⟨r, rfl | ⟨hr, -⟩, h⟩
      · exact .inr h
      · exact .inl ⟨r, hr, h⟩
    · rintro (⟨r, hr, h⟩ | h)
      · by_cases hc : p.covers r
        · exact ⟨p, .inl rfl, hP hc h⟩
        · exact ⟨r, .inr ⟨hr, hc⟩, h⟩
      · exact ⟨p, .inl rfl, h⟩

/-- Putting a root in touches what it overlaps, besides what was touched. -/
theorem touches_insert {d : DirtySet} {p q : Path} :
    (d.insert p).touches q = true ↔ d.touches q = true ∨ p.overlaps q = true := by
  cases d with
  | everything r => simp [insert]
  | roots ps =>
    rw [insert, touches_roots, touches_roots]
    exact exists_insertRoot Path.overlaps_of_covers

theorem touches_foldl_insert {ps : List Path} {d : DirtySet} {q : Path} :
    (ps.foldl (fun d p => d.insert p) d).touches q = true ↔ d.touches q = true ∨ ∃ p ∈ ps, p.overlaps q = true := by
  induction ps generalizing d with
  | nil => simp
  | cons p ps ih => simp [List.foldl_cons, ih, touches_insert, or_assoc]

@[simp] theorem touches_ofPaths {ps : List Path} {q : Path} :
    (ofPaths ps).touches q = true ↔ ∃ p ∈ ps, p.overlaps q = true := by
  simp [ofPaths, touches_foldl_insert]

@[simp] theorem touches_markAll (d : DirtySet) (r : DirtyReason) (q : Path) : (d.markAll r).touches q = true := by
  cases d <;> rfl

theorem touches_union {d e : DirtySet} {q : Path} :
    (d.union e).touches q = true ↔ d.touches q = true ∨ e.touches q = true := by
  cases e with
  | everything r => simp [union]
  | roots ps => simp [union, touches_foldl_insert, touches_roots]

/-! ## Roots that lie under others -/

/-- A root of the set covers the path, or everything is dirty. -/
def covers : DirtySet → Path → Bool
  | .roots ps, p => ps.any (·.covers p)
  | .everything _, _ => true

theorem covers_roots {ps : List Path} {p : Path} : (roots ps).covers p = true ↔ ∃ r ∈ ps, r.covers p := by
  simp [covers]

@[simp] theorem covers_everything (r : DirtyReason) (p : Path) : (everything r).covers p = true := rfl

/-- Putting a root in covers what it covers, besides what was covered. -/
theorem covers_insert {d : DirtySet} {p q : Path} :
    (d.insert p).covers q = true ↔ d.covers q = true ∨ p.covers q = true := by
  cases d with
  | everything r => simp [insert]
  | roots ps =>
    rw [insert, covers_roots, covers_roots]
    exact exists_insertRoot Path.covers_trans

theorem covers_foldl_insert {ps : List Path} {d : DirtySet} {q : Path} :
    (ps.foldl (fun d p => d.insert p) d).covers q = true ↔ d.covers q = true ∨ ∃ p ∈ ps, p.covers q = true := by
  induction ps generalizing d with
  | nil => simp
  | cons p ps ih => simp [List.foldl_cons, ih, covers_insert, or_assoc]

theorem covers_union {d e : DirtySet} {q : Path} :
    (d.union e).covers q = true ↔ d.covers q = true ∨ e.covers q = true := by
  cases e with
  | everything r => cases d <;> simp [union, markAll]
  | roots ps => simp [union, covers_foldl_insert, covers_roots]

/-- Each root of the first set lies under one of the second, or everything is dirty in the
second, as it is if it was in the first. -/
structure Within (d e : DirtySet) : Prop where
  roots : ∀ p ∈ d.paths, e.covers p = true
  all : d.reason?.isSome = true → e.reason?.isSome = true

@[simp] theorem within_refl (d : DirtySet) : d.Within d := by
  refine ⟨fun p hp => ?_, id⟩
  cases d with
  | roots ps => exact covers_roots.2 ⟨p, hp, Path.covers_refl p⟩
  | everything r => rfl

@[simp] theorem within_markAll (d e : DirtySet) (r : DirtyReason) : d.Within (e.markAll r) := by
  cases e <;> exact ⟨fun _ _ => rfl, fun _ => rfl⟩

theorem reason?_insert (d : DirtySet) (p : Path) : (d.insert p).reason? = d.reason? := by cases d <;> rfl

theorem reason?_markAll (d : DirtySet) (r : DirtyReason) : (d.markAll r).reason? = d.reason?.or (some r) := by
  cases d <;> rfl

theorem reason?_foldl_insert (d : DirtySet) (ps : List Path) :
    (ps.foldl (fun d p => d.insert p) d).reason? = d.reason? := by
  induction ps generalizing d with
  | nil => rfl
  | cons p ps ih => rw [List.foldl_cons, ih, reason?_insert]

/-- A reason of the first set goes before one of the second. -/
theorem reason?_union (d e : DirtySet) : (d.union e).reason? = d.reason?.or e.reason? := by
  cases e with
  | roots ps => exact (reason?_foldl_insert d ps).trans Option.or_none.symm
  | everything r => exact reason?_markAll d r

theorem Within.union_left {d e : DirtySet} (h : d.Within e) (f : DirtySet) : d.Within (e.union f) :=
  ⟨fun p hp => covers_union.2 (.inl (h.roots p hp)), fun hd => by simp [reason?_union, h.all hd]⟩

theorem within_union_right (e f : DirtySet) : f.Within (e.union f) :=
  ⟨fun p hp => covers_union.2 (.inr ((within_refl f).roots p hp)), fun hf => by simp [reason?_union, hf]⟩

end DirtySet

/-! ## Told by ids -/

/-- A changed id overlaps the path, or everything is dirty. -/
def DirtyIds.Touches (d : DirtyIds) (t : PathTable) (q : Path) : Prop :=
  d.all.isSome ∨ ∃ i ∈ d.ids, ∃ p, t.path? i = some p ∧ p.overlaps q

theorem resolve_empty (t : PathTable) : DirtySet.empty.resolve t = ⟨[], none⟩ := by
  simp [DirtySet.resolve, DirtySet.empty, Path.roots, Path.dropCovered]

theorem resolve_of_isEmpty {t : PathTable} {d : DirtySet} (h : d.isEmpty = true) : (d.resolve t).isEmpty = true := by
  cases d with
  | everything r => cases h
  | roots ps =>
    obtain rfl := List.isEmpty_iff.1 h
    rw [show DirtySet.roots [] = .empty from rfl, resolve_empty]
    rfl

theorem resolve_ids_lt {t : PathTable} {d : DirtySet} {i : PathId} (h : i ∈ (d.resolve t).ids) : i < t.size := by
  cases d with
  | everything r => cases h
  | roots ps =>
    obtain ⟨p, -, hp⟩ := List.mem_filterMap.1 (List.mem_mergeSort.1 h)
    exact PathTable.lt_size (PathTable.path?_of_id? hp)

/-- A path of the table that a dirty set touches is touched by its ids. -/
theorem touches_resolve {t : PathTable} (h : t.WellFormed) {d : DirtySet} {q : Path} (hq : q ∈ t.paths)
    (hd : d.touches q) : (d.resolve t).Touches t q := by
  cases d with
  | everything r => exact .inl rfl
  | roots ps =>
    obtain ⟨r, hr, ho⟩ := DirtySet.touches_roots.1 hd
    obtain ⟨i, p, hi, hp, hpq⟩ := h.resolve_overlaps hq ho
    have hmem : p ∈ (ps.filterMap t.resolve).filterMap t.path? :=
      List.mem_filterMap.2 ⟨i, List.mem_filterMap.2 ⟨r, hr, hi⟩, hp⟩
    obtain ⟨s, hs, hc⟩ := Path.exists_root_covers hmem
    obtain ⟨j, -, hj⟩ := List.mem_filterMap.1 (Path.mem_of_mem_roots hs)
    exact .inr ⟨j, List.mem_mergeSort.2 (List.mem_filterMap.2 ⟨s, hs, h.id?_of_path? hj⟩), s, hj,
      Path.overlaps_of_covers hc hpq⟩

end Settle
