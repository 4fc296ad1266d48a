/-
  Settle.Proofs.Registry — walking down the tree of segments finds what searching the
  table finds (see `Settle.Graph.Registry`).

  Giving a place an id changes no other place (`id?_put`), and a walk meets the ids of
  the initial parts of its segments in turn (`along_eq`). A table has the ancestors of
  each path before it, so when a path comes its chain is complete but for itself. By
  induction on the paths that have come (`Built`), the registry of a table answers as
  the table does: `ofTable_id?`, `ofTable_resolve`, `ofTable_chains`, `ofTable_depth`.
-/

import Settle.Graph.Registry
import Settle.Proofs.PathTable

namespace Settle

/-- An element put at the end is found there unless it stands before. -/
theorem idxOf?_append_singleton {α : Type} [DecidableEq α] (l : List α) (a b : α) :
    (l ++ [a]).idxOf? b = (l.idxOf? b).or (if b = a then some l.length else none) := by
  rw [List.idxOf?, List.findIdx?_append]
  by_cases h : b = a
  · simp [List.findIdx?_cons, h]
  · simp [List.findIdx?_cons, h, Ne.symm h]

namespace Trie

theorem child?_put (i : PathId) (s : String) (rest : List String) (t : Trie) (s' : String) :
    (put i (s :: rest) t).child? s' = if s' = s then some (put i rest ((t.child? s).getD empty)) else t.child? s' :=
  Group.lookup_upsert s s' _ _

theorem id?_nil (t : Trie) : t.id? [] = t.id := rfl

theorem id?_cons (t : Trie) (s : String) (rest : List String) :
    t.id? (s :: rest) = (t.child? s).bind fun c => c.id? rest := Option.bind_assoc _ _ _

theorem id?_empty (segments : List String) : empty.id? segments = none := by
  cases segments with
  | nil => rfl
  | cons s rest => rfl

/-- The id goes to the place it is given to and to no other. -/
theorem id?_put (i : PathId) (p q : List String) (t : Trie) :
    (put i p t).id? q = if q = p then some i else t.id? q := by
  induction p generalizing t q with
  | nil =>
    cases q with
    | nil => rfl
    | cons s rest => rw [if_neg (List.cons_ne_nil s rest)]; rfl
  | cons s p ih =>
    cases q with
    | nil => rw [if_neg (List.cons_ne_nil s p).symm]; rfl
    | cons s' q =>
      rw [id?_cons, id?_cons, child?_put]
      by_cases hs : s' = s
      · subst hs
        rw [if_pos rfl, Option.bind_some, ih]
        by_cases hq : q = p
        · simp [hq]
        · rw [if_neg hq, if_neg fun e => hq (List.cons.inj e).2]
          cases t.child? s' with
          | none => exact id?_empty q
          | some c => rfl
      · rw [if_neg hs, if_neg fun e => hs (List.cons.inj e).1]

/-- A walk meets the ids of the initial parts of its segments. -/
theorem along_eq (t : Trie) (segments : List String) :
    t.along segments = (List.range segments.length).filterMap fun n => t.id? (segments.take (n + 1)) := by
  induction segments generalizing t with
  | nil => rfl
  | cons s rest ih =>
    rw [List.length_cons, List.range_succ_eq_map, List.filterMap_cons, List.filterMap_map, along]
    simp only [Function.comp_def, List.take_succ_cons, id?_cons, List.take_zero, id?_nil]
    cases t.child? s with
    | none => simp
    | some c =>
      simp only [Option.bind_some, ih]
      cases c.id <;> rfl

/-- The nearest id is the last one met. -/
theorem deepest_eq (t : Trie) (found : Option PathId) (segments : List String) :
    t.deepest found segments = (t.along segments).getLast?.or found := by
  induction segments generalizing t found with
  | nil => rfl
  | cons s rest ih =>
    rw [deepest, along]
    cases t.child? s with
    | none => rfl
    | some c =>
      simp only [ih, List.getLast?_append, Option.or_assoc]
      cases c.id <;> rfl

end Trie

namespace Path

/-- A path stands last in its ancestry, after all that properly cover it. -/
theorem exists_ancestry_eq (p : Path) : ∃ above, p.ancestry = above ++ [p] ∧ ∀ a ∈ above, a.covers p ∧ a ≠ p := by
  obtain ⟨above, below, hsplit⟩ := List.append_of_mem (mem_ancestry.2 (covers_refl p))
  have hshort := ancestry_pairwise p
  rw [hsplit, List.pairwise_append, List.pairwise_cons] at hshort
  obtain ⟨-, ⟨hbelow, -⟩, habove⟩ := hshort
  have hcovers : ∀ q ∈ above ++ p :: below, q.covers p := fun q hq => mem_ancestry.1 (hsplit ▸ hq)
  have hnil : below = [] := by
    refine List.eq_nil_iff_forall_not_mem.2 fun q hq => ?_
    have hlt := hbelow q hq
    have hle := (covers_iff.1 (hcovers q (by simp [hq]))).length_le
    exact absurd hlt (Nat.not_lt.2 hle)
  subst hnil
  refine ⟨above, hsplit, fun a ha => ⟨hcovers a (by simp [ha]), ?_⟩⟩
  rintro rfl
  exact absurd (habove a ha a List.mem_cons_self) (Nat.lt_irrefl _)

end Path

namespace Registry

variable {t : PathTable}

/-- The registry once these first paths of the table have come. -/
structure Built (t : PathTable) (l : List Path) (r : Registry) : Prop where
  paths : r.paths = l
  id? : ∀ q : Path, r.trie.id? q.segments = l.idxOf? q
  chains : r.chains = (List.range l.length).map t.chain
  depth : r.depth = l.foldl (fun n p => max n p.length) 0

theorem built_empty (t : PathTable) : Built t [] empty := ⟨rfl, fun q => Trie.id?_empty q.segments, rfl, rfl⟩

/-- What a walk along a path meets are the ids of its ancestors that have come. -/
theorem Built.along {l : List Path} {r : Registry} (h : Built t l r) (p : Path) :
    r.trie.along p.segments = p.ancestry.filterMap fun q => l.idxOf? q := by
  rw [Trie.along_eq, Path.ancestry, List.filterMap_filterMap]
  refine List.filterMap_congr fun n hn => ?_
  have htake : p.take? (n + 1) = some ⟨p.segments.take (n + 1), by
      have := List.mem_range.1 hn
      simp [p.nonempty]⟩ := Path.take?_eq_some.2 ⟨rfl, List.mem_range.1 hn⟩
  rw [htake, Option.bind_some, ← h.id?]

theorem Built.add (ht : t.WellFormed) {l rest : List Path} {p : Path} {r : Registry} (h : Built t l r)
    (hsplit : t.paths = l ++ p :: rest) : Built t (l ++ [p]) (r.add p) where
  paths := by rw [Registry.add, h.paths]
  id? := fun q => by
    have hnew : p ∉ l := by
      have hnd := hsplit ▸ ht.nodup
      exact fun hp => (List.nodup_append.1 hnd).2.2 p hp p List.mem_cons_self rfl
    simp only [Registry.add, Trie.id?_put, h.paths, h.id?, idxOf?_append_singleton]
    by_cases hq : q = p
    · simp [hq, List.idxOf?_eq_none_iff.2 hnew]
    · have hseg : q.segments ≠ p.segments := fun e => hq (Path.ext_segments e)
      simp [hq, hseg]
  chains := by
    have hp : t.path? l.length = some p := by simp [PathTable.path?, hsplit]
    have hearlier : ∀ a : Path, a.covers p → a ≠ p → t.id? a = l.idxOf? a := by
      intro a hc hne
      have hmem : a ∈ l := by
        have ha := ht.closed p (PathTable.mem_of_path? hp) a hc
        rw [hsplit, List.mem_append, List.mem_cons] at ha
        rcases ha with ha | rfl | ha
        · exact ha
        · exact absurd rfl hne
        · -- after its descendant an ancestor would be the same path
          have hpw := hsplit ▸ ht.sorted
          have hle := ((List.pairwise_cons.1 (List.pairwise_append.1 hpw).2.1).1 a ha).1
          exact absurd (Path.le_antisymm (Path.le_of_covers hc) hle) hne
      obtain ⟨k, hk⟩ := Option.isSome_iff_exists.1 (List.isSome_idxOf?.2 hmem)
      rw [PathTable.id?, hsplit, List.idxOf?, List.findIdx?_append, ← List.idxOf?, hk]
      rfl
    obtain ⟨above, hab, hproper⟩ := Path.exists_ancestry_eq p
    have hnone : l.idxOf? p = none := by
      rw [← h.id?, Option.eq_none_iff_forall_ne_some]
      intro k hk
      rw [h.id?] at hk
      obtain ⟨hlt, he, -⟩ := List.idxOf?_eq_some_iff.1 hk
      have hk' : t.path? k = some p := by
        rw [PathTable.path?, hsplit, List.getElem?_append_left hlt, List.getElem?_eq_getElem hlt, he]
      exact absurd (ht.path?_inj hk' hp) (Nat.ne_of_lt hlt)
    rw [Registry.add, h.chains, h.along, List.length_append, List.length_singleton, List.range_succ, List.map_append,
      List.map_singleton, h.paths]
    have habove : (above.filterMap fun q => l.idxOf? q) = above.filterMap t.id? :=
      List.filterMap_congr fun a ha => (hearlier a (hproper a ha).1 (hproper a ha).2).symm
    simp only [PathTable.chain, hp, hab, List.filterMap_append, List.filterMap_cons, List.filterMap_nil, hnone,
      ht.id?_of_path? hp, List.append_nil, habove]
  depth := by rw [Registry.add, h.depth, List.foldl_append]; rfl

theorem built_ofTable (ht : t.WellFormed) : Built t t.paths (ofTable t) := by
  have hpre : ∀ l rest, t.paths = l ++ rest → Built t l (l.foldl add empty) := by
    intro l
    induction l using List.reverseRecOn with
    | nil => exact fun _ _ => built_empty t
    | append_singleton l p ih =>
      intro rest hsplit
      rw [List.append_assoc] at hsplit
      rw [List.foldl_append]
      exact (ih _ hsplit).add ht hsplit
  exact hpre t.paths [] (List.append_nil _).symm

/-! ## The registry of a table -/

theorem ofTable_path? (ht : t.WellFormed) (i : PathId) : (ofTable t).path? i = t.path? i := by
  rw [path?, (built_ofTable ht).paths, PathTable.path?]

theorem ofTable_id? (ht : t.WellFormed) (p : Path) : (ofTable t).id? p = t.id? p := (built_ofTable ht).id? p

theorem ofTable_chains (ht : t.WellFormed) : (ofTable t).chains = (List.range t.size).map t.chain :=
  (built_ofTable ht).chains

theorem ofTable_depth (ht : t.WellFormed) : (ofTable t).depth = t.depth := (built_ofTable ht).depth

/-- The nearest registered ancestor met on the way down is the nearest one searched for. -/
theorem ofTable_resolve (ht : t.WellFormed) (p : Path) : (ofTable t).resolve p = t.resolve p := by
  have hlast : ∀ (l : List Path) (f : Path → Option PathId), (l.filterMap f).getLast? = l.reverse.findSome? f := by
    intro l f
    rw [← List.head?_reverse, ← List.filterMap_reverse, List.head?_filterMap]
  rw [resolve, Trie.deepest_eq, (built_ofTable ht).along, Option.or_none, hlast]
  rfl

end Registry

end Settle
