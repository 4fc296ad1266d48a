/-
  Settle.Proofs.Numbering — paths, ids and steps stand in one order (see
  `Settle.Graph.Registry` and `Settle.Graph.Search`).

  A registry gives ids in the order of the paths, and a path comes after all its prefixes.
  So ids and paths tell each other, the ids of a path's prefixes increase with their
  length, and the registered prefixes of any path are those of the longest one
  (`registry_numbers`).

  The drafts of a checked outline write different fields, so sorted by them they are in
  strict order (`Outline.Checked.sorted_lt`); a step's position, the path it writes and the
  id of that path then increase together. Halving keeps the place of the field looked for
  in its stretch (`narrow_eq`), so it finds the step of each field that has one.
-/

import Settle.Graph.Search
import Settle.Proofs.Executor
import Settle.Proofs.Flat
import Settle.Proofs.Gathering
import Settle.Proofs.Registry

namespace Settle

/-! ## Prefixes -/

theorem Path.ancestry_segments (p : Path) : p.ancestry.map (·.segments) = p.segments.inits.tail := by
  have htake : p.ancestry.map (·.segments) = (List.range p.length).map fun n => p.segments.take (n + 1) := by
    rw [ancestry, List.map_filterMap, ← List.filterMap_eq_map]
    refine List.filterMap_congr fun n hn => ?_
    have hlt := List.mem_range.1 hn
    rw [take?_eq_some (q := ⟨p.segments.take (n + 1), by simp [p.nonempty]⟩) |>.2 ⟨rfl, hlt⟩]
    rfl
  rw [htake]
  refine List.ext_getElem (by simp [length]) fun n h _ => ?_
  rw [List.getElem_map, List.getElem_range, List.getElem_tail, List.getElem_inits]

theorem Path.single_covers {p q : Path} (hq : q.segments = [p.first]) : q.covers p := by
  refine covers_iff.2 ⟨p.segments.tail, ?_⟩
  rw [hq]
  exact List.cons_head_tail p.nonempty

theorem Path.single_covers_of_covers {p q r : Path} (hr : r.segments = [p.first]) (h : q.covers p) : r.covers q := by
  obtain ⟨t, ht⟩ := covers_iff.1 h
  refine single_covers (hr.trans ?_)
  rw [first, first]
  simp only [← ht, List.head_append_of_ne_nil q.nonempty]

namespace PathTable

variable {t : PathTable}

/-- The chain of an id leads through the prefixes of its path. -/
theorem WellFormed.chain_paths (h : t.WellFormed) {i : PathId} {p : Path} (hi : t.path? i = some p) :
    (t.chain i).map t.path? = p.ancestry.map some := by
  have hreg : ∀ q ∈ p.ancestry, ∃ j, t.id? q = some j := fun q hq =>
    exists_id? (h.closed p (mem_of_path? hi) q (Path.mem_ancestry.1 hq))
  simp only [chain, hi]
  generalize p.ancestry = l at hreg ⊢
  induction l with
  | nil => rfl
  | cons q l ih =>
    obtain ⟨⟨j, hj⟩, hreg⟩ := List.forall_mem_cons.1 hreg
    rw [List.filterMap_cons, hj, List.map_cons, List.map_cons, path?_of_id? hj, ih hreg]

theorem WellFormed.chain_increasing (h : t.WellFormed) (i : PathId) : (t.chain i).Pairwise (· < ·) := by
  unfold chain
  split
  · rename_i p _
    refine h.pairwise_ids ((Path.ancestry_pairwise p).imp_of_mem fun {q r} hq hr hlt => ?_)
    -- the shorter of two prefixes covers the longer
    rcases Path.covers_total (Path.mem_ancestry.1 hq) (Path.mem_ancestry.1 hr) with hc | hc
    · refine ⟨Path.le_of_covers hc, ?_⟩
      rintro rfl
      exact absurd hlt (Nat.lt_irrefl _)
    · exact absurd (Path.covers_iff.1 hc).length_le (Nat.not_le.2 hlt)
  · exact .nil

theorem WellFormed.chain_last (h : t.WellFormed) {i : PathId} {p : Path} (hi : t.path? i = some p) :
    (t.chain i).getLast? = some i := by
  obtain ⟨above, hab, -⟩ := Path.exists_ancestry_eq p
  simp [chain, hi, hab, h.id?_of_path? hi]

/-- A path counts as the longest of its prefixes in the table. -/
theorem WellFormed.resolve_iff (h : t.WellFormed) {p : Path} {i : PathId} :
    t.resolve p = some i ↔ ∃ q, t.path? i = some q ∧ q.segments <+: p.segments ∧
      ∀ r ∈ t.paths, r.segments <+: p.segments → r.length ≤ q.length := by
  have hlongest : ∀ {j}, t.resolve p = some j → ∃ q, t.path? j = some q ∧ q.segments <+: p.segments ∧
      ∀ r ∈ t.paths, r.segments <+: p.segments → r.length ≤ q.length := by
    intro j hj
    obtain ⟨q, hq, hqp, hmax⟩ := resolve_eq_some hj
    refine ⟨q, hq, Path.covers_iff.1 hqp, fun r hr hrp => ?_⟩
    exact (Path.covers_iff.1 (hmax r hr (Path.covers_iff.2 hrp))).length_le
  refine ⟨hlongest, ?_⟩
  rintro ⟨q, hq, hqp, hmax⟩
  obtain ⟨j, hj⟩ := exists_resolve (mem_of_path? hq) (Path.covers_iff.2 hqp)
  obtain ⟨q', hq', hqp', hmax'⟩ := hlongest hj
  -- both are the longest prefix there is
  have hlen : q.length = q'.length :=
    Nat.le_antisymm (hmax' q (mem_of_path? hq) hqp) (hmax q' (mem_of_path? hq') hqp')
  have heq : q = q' := by
    rcases List.prefix_or_prefix_of_prefix hqp hqp' with hc | hc
    · exact Path.ext_segments (hc.eq_of_length hlen)
    · exact (Path.ext_segments (hc.eq_of_length hlen.symm)).symm
  exact hj.trans (congrArg some (h.path?_inj (heq ▸ hq') hq))

theorem WellFormed.resolve_none (h : t.WellFormed) {p : Path} :
    t.resolve p = none ↔ ∀ q ∈ t.paths, q.segments ≠ [p.first] := by
  rw [resolve_eq_none]
  constructor
  · exact fun hp q hq e => hp q hq (Path.single_covers e)
  · intro hp q hq hc
    have hfirst := h.closed q hq ⟨[p.first], List.cons_ne_nil _ _⟩ (Path.single_covers_of_covers rfl hc)
    exact hp _ hfirst rfl

end PathTable

namespace Registry

/-- The registry holds these paths and all their prefixes, and tells them by ids in their
order. -/
structure Numbers (ps : List Path) (r : Registry) : Prop where
  mem_paths : ∀ q, q ∈ r.paths ↔ ∃ p ∈ ps, q.segments <+: p.segments
  sorted : r.paths.Pairwise (· < ·)
  dense : ∀ i, (∃ p, r.path? i = some p) ↔ i < r.paths.length
  id?_iff : ∀ p i, r.id? p = some i ↔ r.path? i = some p
  id?_none : ∀ p, r.id? p = none ↔ p ∉ r.paths
  /-- The chain of a path leads through its prefixes, the shortest first. -/
  chain : ∀ i p, r.path? i = some p →
    (r.chain i).map (fun j => (r.path? j).map (·.segments)) = p.segments.inits.tail.map some ∧
      (r.chain i).Pairwise (· < ·) ∧ (r.chain i).getLast? = some i
  /-- A path counts as its longest registered prefix. -/
  resolve_some : ∀ p i, r.resolve p = some i ↔ ∃ q, r.path? i = some q ∧ q.segments <+: p.segments ∧
    ∀ s ∈ r.paths, s.segments <+: p.segments → s.length ≤ q.length
  resolve_none : ∀ p, r.resolve p = none ↔ ∀ q ∈ r.paths, q.segments ≠ [p.first]

theorem ofTable_paths {t : PathTable} (ht : t.WellFormed) : (ofTable t).paths = t.paths := (built_ofTable ht).paths

theorem ofTable_chain {t : PathTable} (ht : t.WellFormed) {i : PathId} (hi : i < t.size) :
    (ofTable t).chain i = t.chain i := by
  simp [chain, ofTable_chains ht, hi]

theorem registry_numbers (ps : List Path) : Numbers ps (ofTable (.ofPaths ps)) := by
  have ht := PathTable.ofPaths_wellFormed ps
  have hpath : ∀ i, (ofTable (.ofPaths ps)).path? i = (PathTable.ofPaths ps).path? i := ofTable_path? ht
  constructor
  case mem_paths =>
    intro q
    simp only [ofTable_paths ht, PathTable.mem_ofPaths, Path.covers_iff]
  case sorted =>
    rw [ofTable_paths ht]
    exact ht.sorted.imp Path.lt_iff.2
  case dense =>
    intro i
    exact ⟨fun ⟨_, hp⟩ => (List.getElem?_eq_some_iff.1 hp).1, fun hi => ⟨_, List.getElem?_eq_getElem hi⟩⟩
  case id?_iff =>
    intro p i
    rw [ofTable_id? ht, hpath, ht.id?_iff]
  case id?_none =>
    intro p
    rw [ofTable_id? ht, ofTable_paths ht]
    exact List.idxOf?_eq_none_iff
  case chain =>
    intro i p hi
    rw [hpath] at hi
    rw [ofTable_chain ht (PathTable.lt_size hi)]
    refine ⟨?_, ht.chain_increasing i, ht.chain_last hi⟩
    have hchain := congrArg (List.map (Option.map (·.segments))) (ht.chain_paths hi)
    rw [List.map_map, List.map_map] at hchain
    simp only [hpath, ← Path.ancestry_segments, List.map_map]
    exact hchain
  case resolve_some =>
    intro p i
    rw [ofTable_resolve ht, ofTable_paths ht, hpath]
    exact ht.resolve_iff
  case resolve_none =>
    intro p
    rw [ofTable_resolve ht, ofTable_paths ht]
    exact ht.resolve_none

end Registry

/-! ## Steps in order -/

namespace Search

/-- Halving keeps the place of the field looked for in its stretch. -/
theorem narrow_eq {outs : List PathId} (h : outs.Pairwise (· < ·)) {out : PathId} {base size j : Nat}
    (hj : outs[j]? = some out) (hb : base ≤ j) (hs : j < base + size) (hle : base + size ≤ outs.length) :
    narrow outs out base size = j := by
  obtain ⟨hlt, rfl⟩ := List.getElem?_eq_some_iff.1 hj
  have hpw := List.pairwise_iff_getElem.1 h
  fun_induction narrow outs outs[j] base size with
  | case1 base size hsize mid hgt ih =>
    -- the upper half begins after the field, so that stands in the lower one
    have hmid : mid < outs.length := by omega
    rw [List.getElem?_eq_getElem hmid, Option.any_some, decide_eq_true_eq] at hgt
    have hbefore : j < mid := by
      by_contra hge
      rcases Nat.lt_or_eq_of_le (Nat.not_lt.1 hge) with hlt' | rfl
      · exact absurd (hpw mid j hmid hlt hlt') (Nat.lt_asymm hgt)
      · exact absurd hgt (Nat.lt_irrefl _)
    exact ih hb (by omega) (by omega)
  | case2 base size hsize mid hle' ih =>
    have hmid : mid < outs.length := by omega
    rw [List.getElem?_eq_getElem hmid, Option.any_some, decide_eq_true_eq] at hle'
    have hafter : mid ≤ j := Nat.not_lt.1 fun hlt' => hle' (hpw j mid hlt hmid hlt')
    exact ih hafter (by omega) (by omega)
  | case3 base size hsize => omega

/-- The step found writes the field. -/
theorem stepFor?_out {g : Graph} {out : PathId} {i : StepId} (h : stepFor? g out = some i) :
    ∃ s, g.steps[i]? = some s ∧ s.out = out := by
  simp only [stepFor?] at h
  split at h
  · rename_i hout
    rw [Option.some.inj h, List.getElem?_map] at hout
    exact Option.map_eq_some_iff.1 hout
  · cases h

/-- In a list of steps in the order of the fields they write, the step of a field is found. -/
theorem stepFor?_of_out {g : Graph} (h : (g.steps.map (·.out)).Pairwise (· < ·)) {i : StepId} {s : Step}
    (hs : g.steps[i]? = some s) : stepFor? g s.out = some i := by
  have hi : (g.steps.map (·.out))[i]? = some s.out := by rw [List.getElem?_map, hs, Option.map_some]
  obtain ⟨hlt, -⟩ := List.getElem?_eq_some_iff.1 hi
  have hnarrow := narrow_eq h hi (Nat.zero_le i) (by rwa [Nat.zero_add]) (Nat.le_of_eq (Nat.zero_add _))
  simp only [stepFor?, hnarrow, hi, if_true]

end Search

/-- Sorted by the fields they write, the drafts of a checked outline are in strict order. -/
theorem Outline.Checked.sorted_lt {o : Outline} (h : o.Checked) : o.sorted.Pairwise fun x y => x.out < y.out :=
  (List.pairwise_and_iff.2 ⟨o.sorted_le, List.pairwise_map.1 h.nodup_sorted⟩).imp Path.lt_iff.2

namespace Graph

/-- The steps stand in the order of the paths they write. -/
theorem sorted_stepsFrom {o : Outline} (h : o.Checked) : (stepsFrom o.table 0 o.sorted).Pairwise fun s t =>
    ∃ p q, o.table.path? s.out = some p ∧ o.table.path? t.out = some q ∧ p < q := by
  refine List.pairwise_iff_getElem.2 fun i j hi hj hij => ?_
  have hstep : ∀ k (hk : k < (stepsFrom o.table 0 o.sorted).length), ∃ hk' : k < o.sorted.length,
      o.table.path? (stepsFrom o.table 0 o.sorted)[k].out = some o.sorted[k].out := by
    intro k hk
    have hk' : k < o.sorted.length := length_stepsFrom o.table 0 o.sorted ▸ hk
    have heq := getElem?_stepsFrom o.table 0 k o.sorted
    rw [List.getElem?_eq_getElem hk, List.getElem?_eq_getElem hk', Option.map_some] at heq
    rw [Option.some.inj heq]
    exact ⟨hk', path?_step_out (List.mem_mergeSort.1 (List.getElem_mem hk')) _⟩
  obtain ⟨hi', hpi⟩ := hstep i hi
  obtain ⟨hj', hpj⟩ := hstep j hj
  exact ⟨_, _, hpi, hpj, List.pairwise_iff_getElem.1 h.sorted_lt i j hi' hj' hij⟩

/-- Fields are written in the order of their ids. -/
theorem outs_increasing {o : Outline} (h : o.Checked) :
    ((stepsFrom o.table 0 o.sorted).map (·.out)).Pairwise (· < ·) := by
  refine List.pairwise_map.2 ((sorted_stepsFrom h).imp ?_)
  rintro s t ⟨p, q, hp, hq, hlt⟩
  obtain ⟨hle, hne⟩ := Path.lt_iff.1 hlt
  exact (PathTable.ofPaths_wellFormed _).lt_of_le hp hq hle hne

/-- The steps of a graph stand in the order of the paths they write, ids are positions and
dependencies come in order, each once. A step is found by the field it writes. -/
structure InOrder (g : Graph) : Prop where
  sorted : g.steps.Pairwise fun s t =>
    ∃ p q, g.table.path? s.out = some p ∧ g.table.path? t.out = some q ∧ p < q
  outs : (g.steps.map (·.out)).Pairwise (· < ·)
  id_eq : ∀ (i : Nat) (s : Step), g.steps[i]? = some s → s.id = i
  deps : ∀ s ∈ g.steps, s.deps.Pairwise (· < ·)
  found : ∀ out i, Search.stepFor? g out = some i ↔ ∃ s, g.steps[i]? = some s ∧ s.out = out
  missing : ∀ out, Search.stepFor? g out = none ↔ ∀ s ∈ g.steps, s.out ≠ out
  agrees : ∀ out, Search.stepFor? g out = g.stepFor? out

theorem compile_inOrder {d : Declaration} {n : Nat} {g : Graph} (h : compile d n = .ok g) : g.InOrder := by
  obtain ⟨o, ho, htable, hsteps, -⟩ := compile_eq_ok h
  have hwf := compile_wellFormed h
  have hok := Outline.ofDeclaration_checked ho
  have houts : (g.steps.map (·.out)).Pairwise (· < ·) := hsteps ▸ outs_increasing hok
  have hfound : ∀ out i, Search.stepFor? g out = some i ↔ ∃ s, g.steps[i]? = some s ∧ s.out = out := by
    refine fun out i => ⟨Search.stepFor?_out, ?_⟩
    rintro ⟨s, hs, rfl⟩
    exact Search.stepFor?_of_out houts hs
  have hmissing : ∀ out, Search.stepFor? g out = none ↔ ∀ s ∈ g.steps, s.out ≠ out := by
    intro out
    rw [Option.eq_none_iff_forall_ne_some]
    constructor
    · rintro hn s hs rfl
      obtain ⟨i, hi⟩ := List.mem_iff_getElem?.1 hs
      exact hn i ((hfound s.out i).2 ⟨s, hi, rfl⟩)
    · intro hn i hi
      obtain ⟨s, hs, ho⟩ := (hfound out i).1 hi
      exact hn s (List.mem_of_getElem? hs) ho
  constructor
  case sorted => exact htable ▸ hsteps ▸ sorted_stepsFrom hok
  case outs => exact houts
  case id_eq => exact fun i s hs => hwf.id_eq hs
  case deps =>
    intro s hs
    rw [hsteps] at hs
    obtain ⟨i, hi⟩ := List.mem_iff_getElem?.1 hs
    rw [getElem?_stepsFrom] at hi
    obtain ⟨x, -, rfl⟩ := Option.map_eq_some_iff.1 hi
    exact increasing_tidy _
  case found => exact hfound
  case missing => exact hmissing
  case agrees =>
    intro out
    cases hf : Search.stepFor? g out with
    | none => exact (List.findIdx?_eq_none_iff.2 fun s hs => decide_eq_false ((hmissing out).1 hf s hs)).symm
    | some i =>
      obtain ⟨s, hs, rfl⟩ := (hfound out i).1 hf
      exact (hwf.stepFor?_eq hs).symm

end Graph

/-- What is numbered is well formed: the registry of any paths, and the steps of any
declaration that compiles. -/
theorem numbered_in_order : (∀ ps, Registry.Numbers ps (.ofTable (.ofPaths ps))) ∧
    ∀ d n g, Graph.compile d n = .ok g → g.InOrder :=
  ⟨Registry.registry_numbers, fun _ _ _ => Graph.compile_inOrder⟩

/-- The price of an item is registered under the list and its items, in that order; the
step of a total is found among those of the profile. -/
theorem Profile.price_and_total : Registry.Numbers [price] (.ofTable (.ofPaths [price])) ∧
    (Registry.ofTable (.ofPaths [price])).paths = [list, item, price] ∧
    Graph.compile declaration 1 = .ok graph ∧ graph.InOrder ∧ Search.stepFor? graph 5 = some 2 :=
  ⟨numbered_in_order.1 _, by cbv, compile_eq, numbered_in_order.2 _ _ _ compile_eq, by cbv⟩

end Settle
