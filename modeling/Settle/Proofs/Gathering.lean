/-
  Settle.Proofs.Gathering — a dirty set is the same however its paths were gathered (see
  `Settle.Dirty`).

  The roots of a list of paths are found by one sweep of the sorted list, and a dirty set
  keeps its roots path by path. Both give lists in strict order of which no path overlaps
  another (`Path.Canonical`), and such a list holds the topmost paths of all that it covers
  (`Canonical.mem_iff`), so two of them that cover the same paths are equal
  (`Canonical.ext`). What a set covers is told by the paths that were put in, whatever the
  order, and by the first reason:
  - `DirtySet.gathered_alike`: sets of the same paths, put in one by one or united, have the
    roots of the list, and a reason once given stands alone.
-/

import Settle.Proofs.Dirty

namespace Settle

namespace Path

/-! ## Canonical lists -/

/-- Paths in strict order, none of which overlaps another. -/
structure Canonical (ps : List Path) : Prop where
  sorted : ps.Pairwise (· < ·)
  apart : ps.Pairwise fun p q => p.overlaps q = false

theorem lt_iff {p q : Path} : p < q ↔ p.le q ∧ p ≠ q := by
  have hlt : p < q ↔ ¬ q.le p := by
    rw [le_iff, not_not]
    exact Iff.rfl
  rw [hlt]
  refine ⟨fun h => ⟨(Bool.or_eq_true _ _ ▸ le_total p q).resolve_right h, ?_⟩, fun h hle => h.2 (le_antisymm h.1 hle)⟩
  rintro rfl
  exact h (le_of_covers (covers_refl p))

instance : IsStrictOrder Path (· < ·) where
  irrefl _ h := (lt_iff.1 h).2 rfl
  trans _ _ _ := List.lt_trans

instance : Std.Total fun p q : Path => p.le q = true := ⟨fun p q => Bool.or_eq_true _ _ ▸ le_total p q⟩

instance : IsTrans Path fun p q => p.le q = true := ⟨fun _ _ _ => le_trans⟩

instance : Std.Symm fun p q : Path => p.overlaps q = false := ⟨fun p q h => overlaps_comm p q ▸ h⟩

theorem ne_of_apart {p q : Path} (h : p.overlaps q = false) : p ≠ q := by
  rintro rfl
  exact absurd (overlaps_refl p) (Bool.eq_false_iff.1 h)

namespace Canonical

variable {ps qs : List Path} {p q : Path}

theorem of_le (hle : ps.Pairwise fun p q => p.le q = true) (hapart : ps.Pairwise fun p q => p.overlaps q = false) :
    Canonical ps :=
  ⟨(List.pairwise_and_iff.2 ⟨hle, hapart⟩).imp fun h => lt_iff.2 ⟨h.1, ne_of_apart h.2⟩, hapart⟩

theorem le (h : Canonical ps) : ps.Pairwise fun p q => p.le q = true := h.sorted.imp fun h => (lt_iff.1 h).1

/-- A path of the list that covers another is that path. -/
theorem eq_of_covers (h : Canonical ps) (hp : p ∈ ps) (hq : q ∈ ps) (hc : p.covers q) : p = q := by
  by_contra hne
  exact Bool.eq_false_iff.1 (h.apart.forall hp hq hne) (overlaps_iff.2 (.inl hc))

/-- The paths of the list are the topmost of those that it covers. -/
theorem mem_iff (h : Canonical ps) :
    p ∈ ps ↔ (∃ r ∈ ps, r.covers p) ∧ ∀ q, (∃ r ∈ ps, r.covers q) → q.covers p → q = p := by
  constructor
  · refine fun hp => ⟨⟨p, hp, covers_refl p⟩, ?_⟩
    rintro q ⟨r, hr, hrq⟩ hqp
    obtain rfl := h.eq_of_covers hr hp (covers_trans hrq hqp)
    exact covers_antisymm hqp hrq
  · rintro ⟨⟨r, hr, hrp⟩, htop⟩
    exact htop r ⟨r, hr, covers_refl r⟩ hrp ▸ hr

/-- A canonical list is told by what it covers. -/
theorem ext (hp : Canonical ps) (hq : Canonical qs)
    (h : ∀ p, (∃ r ∈ ps, r.covers p) ↔ ∃ r ∈ qs, r.covers p) : ps = qs := by
  refine hp.sorted.eq_of_mem_iff hq.sorted fun p => ?_
  rw [hp.mem_iff, hq.mem_iff]
  simp only [h]

theorem insertRoot (h : Canonical ps) (p : Path) : Canonical (DirtySet.insertRoot p ps) := by
  unfold DirtySet.insertRoot
  split
  · exact h
  rename_i hnone
  have hkeep : Canonical (ps.filter fun r => !p.covers r) := ⟨h.sorted.filter _, h.apart.filter _⟩
  have hplace : (fun r : Path => decide (¬ p.le r = true)) = fun r => decide (r < p) := by
    funext r
    exact decide_eq_decide.2 (by rw [le_iff, not_not]; exact Iff.rfl)
  have hle := hkeep.le.orderedInsert p
  rw [List.orderedInsert_eq_take_drop, hplace] at hle
  refine .of_le hle ?_
  -- being apart does not depend on the order, so the new root may as well stand first
  rw [List.pairwise_middle fun h => (overlaps_comm _ _).trans h, List.takeWhile_append_dropWhile, List.pairwise_cons]
  refine ⟨fun r hr => ?_, hkeep.apart⟩
  obtain ⟨hr, hpr⟩ := List.mem_filter.1 hr
  refine Bool.eq_false_iff.2 fun ho => ?_
  rcases overlaps_iff.1 ho with hc | hc
  · rw [hc] at hpr
    cases hpr
  · exact hnone (List.any_eq_true.2 ⟨r, hr, hc⟩)

end Canonical

theorem canonical_roots (ps : List Path) : Canonical (roots ps) :=
  .of_le ((pairwise_roots ps).imp And.left) ((pairwise_roots ps).imp And.right)

theorem roots_cover {ps : List Path} {p : Path} : (∃ r ∈ roots ps, r.covers p) ↔ ∃ r ∈ ps, r.covers p := by
  constructor
  · rintro ⟨r, hr, hp⟩
    exact ⟨r, mem_of_mem_roots hr, hp⟩
  · rintro ⟨q, hq, hqp⟩
    obtain ⟨r, hr, hrq⟩ := exists_root_covers hq
    exact ⟨r, hr, covers_trans hrq hqp⟩

/-- The roots are the paths without a proper ancestor among the paths. -/
theorem mem_roots {ps : List Path} {p : Path} : p ∈ roots ps ↔ p ∈ ps ∧ ∀ q ∈ ps, q.covers p → q = p := by
  rw [(canonical_roots ps).mem_iff]
  simp only [roots_cover]
  constructor
  · rintro ⟨⟨q, hq, hqp⟩, htop⟩
    have hself : ∀ r ∈ ps, r.covers p → r = p := fun r hr hrp => htop r ⟨r, hr, covers_refl r⟩ hrp
    exact ⟨hself q hq hqp ▸ hq, hself⟩
  · rintro ⟨hp, htop⟩
    refine ⟨⟨p, hp, covers_refl p⟩, ?_⟩
    rintro q ⟨r, hr, hrq⟩ hqp
    obtain rfl := htop r hr (covers_trans hrq hqp)
    exact covers_antisymm hqp hrq

end Path

namespace DirtySet

/-! ## What the operations keep -/

variable {d e : DirtySet} {ps : List Path}

theorem canonical_insert (h : Path.Canonical d.paths) (p : Path) : Path.Canonical (d.insert p).paths := by
  cases d with
  | roots ps => exact h.insertRoot p
  | everything r => exact h

theorem canonical_foldl_insert (h : Path.Canonical d.paths) (ps : List Path) :
    Path.Canonical (ps.foldl (fun d p => d.insert p) d).paths := by
  induction ps generalizing d with
  | nil => exact h
  | cons p ps ih => exact ih (canonical_insert h p)

theorem canonical_markAll (d : DirtySet) (r : DirtyReason) : Path.Canonical (d.markAll r).paths := by
  cases d <;> exact ⟨.nil, .nil⟩

theorem canonical_union (h : Path.Canonical d.paths) (e : DirtySet) : Path.Canonical (d.union e).paths := by
  cases e with
  | roots ps => exact canonical_foldl_insert h ps
  | everything r => exact canonical_markAll d r

theorem covers_markAll (d : DirtySet) (r : DirtyReason) (p : Path) : (d.markAll r).covers p = true := by
  cases d <;> rfl

/-- A canonical set without a reason is told by what it covers. -/
theorem eq_roots (hd : Path.Canonical d.paths) (hreason : d.reason? = none)
    (hc : ∀ p, d.covers p = true ↔ ∃ r ∈ ps, r.covers p) : d = .roots (Path.roots ps) := by
  cases d with
  | everything r => cases hreason
  | roots qs =>
    refine congrArg _ (hd.ext (Path.canonical_roots ps) fun p => ?_)
    rw [Path.roots_cover, ← hc, covers_roots]
    exact Iff.rfl

/-! ## Gathered sets -/

/-- How a set of changed paths comes about. -/
inductive Gathering where
  | none
  | insert (g : Gathering) (p : Path)
  | markAll (g : Gathering) (r : DirtyReason)
  | union (g other : Gathering)

namespace Gathering

/-- The set that comes about. -/
def set : Gathering → DirtySet
  | none => .empty
  | insert g p => g.set.insert p
  | markAll g r => g.set.markAll r
  | union g other => g.set.union other.set

/-- The paths that were put in. -/
def told : Gathering → List Path
  | none => []
  | insert g p => g.told ++ [p]
  | markAll g _ => g.told
  | union g other => g.told ++ other.told

/-- The reasons that were given, the first one first. -/
def reasons : Gathering → List DirtyReason
  | none => []
  | insert g _ => g.reasons
  | markAll g r => g.reasons ++ [r]
  | union g other => g.reasons ++ other.reasons

/-- A set and what comes of it by further operations. -/
inductive Grows (g : Gathering) : Gathering → Prop
  | refl : Grows g g
  | insert {h : Gathering} (p : Path) : Grows g h → Grows g (h.insert p)
  | markAll {h : Gathering} (r : DirtyReason) : Grows g h → Grows g (h.markAll r)
  | union {h : Gathering} (other : Gathering) : Grows g h → Grows g (h.union other)

theorem canonical_set (g : Gathering) : Path.Canonical g.set.paths := by
  induction g with
  | none => exact ⟨.nil, .nil⟩
  | insert g p ih => exact canonical_insert ih p
  | markAll g r => exact canonical_markAll g.set r
  | union g other ih => exact canonical_union ih other.set

theorem reason?_set (g : Gathering) : g.set.reason? = g.reasons.head? := by
  induction g with
  | none => rfl
  | insert g p ih => exact (reason?_insert g.set p).trans ih
  | markAll g r ih => rw [set, reasons, reason?_markAll, ih, List.head?_append, List.head?_singleton]
  | union g other ih ihother => rw [set, reasons, reason?_union, ih, ihother, List.head?_append]

theorem covers_set (g : Gathering) {p : Path} :
    g.set.covers p = true ↔ g.reasons ≠ [] ∨ ∃ q ∈ g.told, q.covers p = true := by
  induction g with
  | none => simp [set, told, reasons, empty, covers]
  | insert g q ih => simp [set, told, reasons, covers_insert, ih, or_and_right, exists_or, or_assoc]
  | markAll g r => simp [set, reasons, covers_markAll]
  | union g other ih ihother =>
    simp only [set, told, reasons, covers_union, ih, ihother, List.mem_append, or_and_right, exists_or, ne_eq,
      List.append_eq_nil_iff, not_and_or]
    exact or_or_or_comm

/-- Without a reason, a set has the roots of the paths that were put in. -/
theorem set_eq_roots {g : Gathering} (h : g.reasons = []) (hsame : ∀ p, p ∈ g.told ↔ p ∈ ps) :
    g.set = .roots (Path.roots ps) := by
  refine eq_roots g.canonical_set (by rw [reason?_set, h, List.head?_nil]) fun p => ?_
  rw [covers_set]
  simp [h, hsame]

theorem Grows.reasons {g h : Gathering} (hg : g.Grows h) : g.reasons <+: h.reasons := by
  induction hg with
  | refl => exact List.prefix_refl _
  | insert _ _ ih => exact ih
  | markAll r _ ih => exact ih.trans (List.prefix_append _ _)
  | union other _ ih => exact ih.trans (List.prefix_append _ _)

/-- The first reason stands. -/
theorem Grows.set_eq {g h : Gathering} (hg : g.Grows h) {r : DirtyReason} (hr : g.reasons.head? = some r) :
    h.set = .everything r := by
  have hreason : h.set.reason? = some r := by
    obtain ⟨more, hmore⟩ := hg.reasons
    rw [reason?_set, ← hmore, List.head?_append, hr, Option.some_or]
  cases hs : h.set with
  | roots ps =>
    rw [hs] at hreason
    cases hreason
  | everything r' =>
    rw [hs] at hreason
    exact congrArg _ (Option.some.inj hreason)

end Gathering

/-- The roots of a list are its paths without a proper ancestor in it, in strict order. A set
gathered from these paths has just these roots, and one that was given a reason has the
first reason and no roots. -/
theorem gathered_alike (ps : List Path) :
    ((Path.roots ps).Pairwise (· < ·) ∧ (Path.roots ps).Pairwise (fun p q => p.overlaps q = false) ∧
      ∀ p, p ∈ Path.roots ps ↔ p ∈ ps ∧ ∀ q ∈ ps, q.covers p → q = p) ∧
    (∀ qs : List Path, (∀ p, p ∈ qs ↔ p ∈ ps) → ofPaths qs = .roots (Path.roots ps)) ∧
    (∀ g : Gathering, g.reasons = [] → (∀ p, p ∈ g.told ↔ p ∈ ps) → g.set = .roots (Path.roots ps)) ∧
    ∀ (g h : Gathering) (r : DirtyReason), g.Grows h → g.reasons.head? = some r →
      h.set.reason? = some r ∧ h.set.paths = [] := by
  have hcanonical := Path.canonical_roots ps
  refine ⟨⟨hcanonical.sorted, hcanonical.apart, fun p => Path.mem_roots⟩, fun qs hsame => ?_, ?_, ?_⟩
  · refine eq_roots (canonical_foldl_insert ⟨.nil, .nil⟩ qs) (reason?_foldl_insert .empty qs) fun p => ?_
    rw [ofPaths, covers_foldl_insert]
    simp [empty, covers, hsame]
  · exact fun g => Gathering.set_eq_roots
  · intro g h r hg hr
    rw [hg.set_eq hr]
    exact ⟨rfl, rfl⟩

/-! ## A profile -/

namespace Profile

def whole : Path := ⟨["profile"], by decide⟩

def age : Path := ⟨["profile", "age"], by decide⟩

/-- A text between the two above, and a path below neither. -/
def picture : Path := ⟨["profile-picture"], by decide⟩

/-- Two sets united, the path that covers another put in last and first. -/
def changed : Gathering := ((Gathering.none.insert age).insert picture).union ((Gathering.none.insert whole).insert age)

/-- Everything is made dirty, and later for another reason. -/
def lost : Gathering := changed.markAll .customMutation

theorem gathered_alike_profile :
    changed.reasons = [] ∧ (∀ p, p ∈ changed.told ↔ p ∈ [picture, whole, age]) ∧
      Path.roots [picture, whole, age] = [whole, picture] ∧ changed.set = .roots [whole, picture] ∧
      ((lost.insert age).union (Gathering.none.markAll .unknownWrite)).set.reason? = some .customMutation := by
  have hsame : ∀ p, p ∈ changed.told ↔ p ∈ [picture, whole, age] := fun p => by
    simp only [changed, Gathering.told, List.nil_append, List.cons_append, List.mem_cons, List.not_mem_nil, or_false]
    tauto
  obtain ⟨-, -, halike, hstands⟩ := gathered_alike [picture, whole, age]
  have hset := halike changed rfl hsame
  have hrun : changed.set = .roots [whole, picture] := by decide
  have hgrows : lost.Grows ((lost.insert age).union (Gathering.none.markAll .unknownWrite)) :=
    .union _ (.insert _ .refl)
  refine ⟨rfl, hsame, ?_, hrun, (hstands _ _ .customMutation hgrows rfl).1⟩
  exact DirtySet.roots.inj (hset.symm.trans hrun)

end Profile

end DirtySet

end Settle
