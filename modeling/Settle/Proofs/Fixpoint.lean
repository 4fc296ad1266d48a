/-
  Settle.Proofs.Fixpoint — a settled state is decided by what no step writes (see
  `Settle.Graph.Order`).

  Peeled off in levels, a step reads no field that a later one writes
  (`compile_pairwise`), so without a cycle steps can be followed in their order: what a
  step comes to in a settled state is what it comes to before the later fields are
  filled in. Two settled states that agree around the fields of steps therefore agree
  there as well, up to the signs of zeros (`same_of_settled`).
-/

import Settle.Proofs.Overwrite

namespace Settle

namespace Graph

/-! ## Orders without a cycle -/

/-- A step of a level reads no step of its level or a later one. -/
theorem levels_pairwise (table : PathTable) (l : List Step) :
    (Order.levels table l).1.flatten.Pairwise fun s t => s.reads table t = false := by
  fun_induction Order.levels table l with
  | case1 l _ more left heq ih =>
    rw [heq] at ih
    have hfree : ∀ s ∈ l.filter (fun s => !Order.blocked table l s), ∀ t ∈ l, s.reads table t = false := by
      intro s hs t ht
      have hs := (List.mem_filter.1 hs).2
      simp only [Order.blocked, Bool.not_eq_true', List.any_eq_false] at hs
      simpa using hs t ht
    have hmore : ∀ t ∈ more.flatten, t ∈ l := by
      intro t ht
      have hperm := levels_perm table (Order.waiting table l)
      rw [heq] at hperm
      exact (List.mem_filter.1 (hperm.mem_iff.1 (List.mem_append_left _ ht))).1
    rw [List.flatten_cons, List.pairwise_append]
    refine ⟨?_, ih, fun s hs t ht => hfree s hs t (hmore t ht)⟩
    exact List.pairwise_of_forall_mem_list fun s hs t ht => hfree s hs t (List.mem_filter.1 ht).1
  | case2 l _ => exact .nil

/-- The field that a step writes. -/
def out? (g : Graph) (i : StepId) : Option Path := (g.step? i).bind fun s => g.table.path? s.out

/-- The fields that steps write, in the order of the steps. -/
def outs (g : Graph) : List Path := g.orders.all.order.filterMap g.out?

/-- A write of a step leaves everything but its field where it is. -/
def Open (g : Graph) (v : Value) : Prop := ∀ o ∈ g.outs, State.Open v o.segments

/-- A step depends on what another writes. -/
def Reads (g : Graph) (i j : StepId) : Prop :=
  ∃ s d q o, g.step? i = some s ∧ d ∈ s.deps ∧ g.table.path? d = some q ∧ g.out? j = some o ∧ q.overlaps o

theorem out?_eq_some {g : Graph} {i : StepId} {o : Path} :
    g.out? i = some o ↔ ∃ s, g.step? i = some s ∧ g.table.path? s.out = some o := Option.bind_eq_some_iff

/-- In a scope without a cycle no step depends on a later one. -/
theorem compile_pairwise {d : Declaration} {n : Nat} {g : Graph} (h : compile d n = .ok g) (scope : Scope)
    (hb : (g.orders.get scope).hasBackEdges = false) :
    (g.orders.get scope).order.Pairwise fun i j => i ≠ j → ¬ g.Reads i j := by
  obtain ⟨o, -, -, -, -, horders⟩ := compile_eq_ok h
  have hwf := compile_wellFormed h
  have hlevels := levels_pairwise g.table (g.steps.filter fun s => scope.includes s.scheduling)
  have hperm := levels_perm g.table (g.steps.filter fun s => scope.includes s.scheduling)
  rw [horders scope] at hb ⊢
  unfold orderOf at hb ⊢
  generalize Order.levels g.table (g.steps.filter fun s => scope.includes s.scheduling) = p at hlevels hperm hb
  obtain ⟨levels, left⟩ := p
  have hleft : left = [] := by
    cases left with
    | nil => rfl
    | cons s left => cases hb
  subst hleft
  simp only [List.map_nil, List.append_nil, ← List.map_flatten] at hperm ⊢
  rw [List.pairwise_map]
  refine hlevels.imp_of_mem fun {s t} hs ht hst hne => ?_
  intro ⟨s', d, q, p, hs', hd, hq, hp, hov⟩
  obtain ⟨t', ht', hp⟩ := out?_eq_some.1 hp
  have hat : ∀ {u : Step}, u ∈ levels.flatten → g.step? u.id = some u := fun hu => by
    obtain ⟨k, hk⟩ := List.mem_iff_getElem?.1 (List.mem_filter.1 (hperm.mem_iff.1 hu)).1
    rw [hwf.id_eq hk]
    exact hk
  cases (hat hs).symm.trans hs'
  cases (hat ht).symm.trans ht'
  simp only [Step.reads, Bool.and_eq_false_iff, bne_eq_false_iff_eq, List.any_eq_false] at hst
  refine hst.resolve_left (Ne.symm hne) d hd ?_
  rw [PathTable.overlap_iff hp hq, Path.overlaps_comm]
  exact hov

theorem WellFormed.mem_all {g : Graph} (h : g.WellFormed) {i : StepId} :
    i ∈ g.orders.all.order ↔ ∃ s, g.step? i = some s := by
  have hmem : i ∈ (g.orders.get .all).order ↔ _ := h.mem_order
  exact hmem.trans (exists_congr fun s => and_iff_left rfl)

/-! ## What steps come to -/

/-- Two states read alike at a path, but for the signs of zeros. -/
def AlikeAt (g : Graph) (a b : Value) (d : PathId) : Prop :=
  ∀ p, g.table.path? d = some p → (State.read a p).map Value.unsigned = (State.read b p).map Value.unsigned

/-- Derive functions give values that count as the same for dependencies that do. -/
def Respects (g : Graph) : Prop :=
  ∀ i s derive equality, g.step? i = some s → g.body? i = some (.computed derive equality) →
    ∀ a b, (∀ d ∈ s.deps, g.AlikeAt a b d) →
      (derive.run a).outcome.map Value.unsigned = (derive.run b).outcome.map Value.unsigned

/-- Steps compare values by what counts as the same. -/
def Structural (g : Graph) : Prop :=
  ∀ i derive equality, g.body? i = some (.computed derive equality) → equality = none

theorem structural_of_mem {g : Graph} (h : ∀ derive equality, Body.computed derive equality ∈ g.bodies → equality = none) :
    g.Structural :=
  fun _ derive equality hb => h derive equality (List.mem_of_getElem? hb)

theorem Structural.reflexive {g : Graph} (h : g.Structural) : g.Reflexive := fun i derive _ hb => nomatch h i derive _ hb

/-- The sources of links are there. -/
def Linked (g : Graph) (v : Value) : Prop :=
  ∀ i s p, g.step? i = some s → g.body? i = some .link → s.source.bind g.table.path? = some p → (State.read v p).isSome

/-- The value that a step would give its field. -/
def target? (g : Graph) (v : Value) (i : StepId) : Option Value :=
  match g.step? i, g.body? i with
  | some _, some (.computed derive _) => (derive.run v).outcome.toOption
  | some s, some .link => (s.source.bind g.table.path?).bind (State.read v)
  | _, _ => none

variable {g : Graph} {i : StepId} {s : Step} {a b v : Value}

theorem target?_computed {derive : Derive} {equality : Option Equality} (hs : g.step? i = some s)
    (hb : g.body? i = some (.computed derive equality)) (v : Value) :
    g.target? v i = (derive.run v).outcome.toOption := by
  simp only [target?, hs, hb]

theorem target?_link (hs : g.step? i = some s) (hb : g.body? i = some .link) (v : Value) :
    g.target? v i = (s.source.bind g.table.path?).bind (State.read v) := by
  simp only [target?, hs, hb]

/-- States that read alike at the dependencies of a step let it come to the same. -/
theorem target?_congr (hg : g.WellFormed) (hl : g.Local) (hs : g.step? i = some s)
    (hin : ∀ d ∈ s.deps, g.SameAt a b d) : g.target? a i = g.target? b i := by
  obtain ⟨body, hb⟩ := hg.exists_body hs
  cases body with
  | computed derive equality =>
    rw [target?_computed hs hb, target?_computed hs hb, hl i s derive equality hs hb a b hin]
  | link =>
    obtain ⟨d, hd, q, hq, hsrc⟩ := hg.exists_source hs hb
    rw [target?_link hs hb, target?_link hs hb, hsrc, Option.bind_some, Option.bind_some]
    exact hin d hd q hq

/-- The same but for the signs of zeros. -/
theorem target?_alike (hg : g.WellFormed) (hresp : g.Respects) (hs : g.step? i = some s)
    (hin : ∀ d ∈ s.deps, g.AlikeAt a b d) :
    (g.target? a i).map Value.unsigned = (g.target? b i).map Value.unsigned := by
  obtain ⟨body, hb⟩ := hg.exists_body hs
  cases body with
  | computed derive equality =>
    have hout := hresp i s derive equality hs hb a b hin
    rw [target?_computed hs hb, target?_computed hs hb]
    revert hout
    cases (derive.run a).outcome with
    | error _ => cases (derive.run b).outcome <;> simp [Except.map, Except.toOption]
    | ok _ => cases (derive.run b).outcome <;> simp [Except.map, Except.toOption]
  | link =>
    obtain ⟨d, hd, q, hq, hsrc⟩ := hg.exists_source hs hb
    rw [target?_link hs hb, target?_link hs hb, hsrc, Option.bind_some, Option.bind_some]
    exact hin d hd q hq

/-- Where no derive function fails and no source is missing, every step comes to a value. -/
theorem exists_target (hg : g.WellFormed) (ht : g.Total) (hlink : g.Linked v) (hs : g.step? i = some s) :
    ∃ next, g.target? v i = some next := by
  obtain ⟨body, hb⟩ := hg.exists_body hs
  cases body with
  | computed derive equality =>
    obtain ⟨next, hn⟩ := ht i derive equality hb v
    exact ⟨next, by rw [target?_computed hs hb, hn]; rfl⟩
  | link =>
    obtain ⟨-, -, q, -, hsrc⟩ := hg.exists_source hs hb
    obtain ⟨next, hn⟩ := Option.isSome_iff_exists.1 (hlink i s q hs hb hsrc)
    exact ⟨next, by rw [target?_link hs hb, hsrc, Option.bind_some, hn]⟩

theorem changeTo_eq_none {prev : Option Value} {next : Value} (h : changeTo none prev next = none) :
    ∃ there, prev = some there ∧ there.unsigned = next.unsigned := by
  unfold changeTo Pass.unchanged at h
  cases prev with
  | none => cases h
  | some there =>
    dsimp only at h
    split at h
    · exact ⟨there, rfl, Value.same_iff.1 ‹_›⟩
    · cases h

/-- The field of a settled step holds what the step comes to. -/
theorem Settled.lookup (hstruct : g.Structural) (hset : g.Settled v i) {next : Value} (hn : g.target? v i = some next)
    {o : Path} (ho : g.out? i = some o) :
    ∃ there, State.lookup v o = some there ∧ there.unsigned = next.unsigned := by
  obtain ⟨s, hs, ho⟩ := out?_eq_some.1 ho
  unfold Settled at hset
  cases hb : g.body? i with
  | none => simp [target?, hs, hb] at hn
  | some body =>
    refine changeTo_eq_none ?_
    cases body with
    | computed derive equality =>
      obtain rfl := hstruct i derive equality hb
      rw [target?_computed hs hb] at hn
      rw [effect_computed hs hb, ho, Option.bind_some] at hset
      cases hout : (derive.run v).outcome with
      | error fault =>
        rw [hout] at hn
        cases hn
      | ok value =>
        rw [hout] at hn hset
        obtain rfl : value = next := Option.some.inj hn
        exact Except.ok.inj hset
    | link =>
      rw [target?_link hs hb] at hn
      rw [effect_link hs hb, hn, ho] at hset
      exact Except.ok.inj hset

/-! ## One settled state -/

theorem SelfFree.not_reads (h : g.SelfFree) (i : StepId) : ¬ g.Reads i i := by
  intro ⟨s, d, q, o, hs, hd, hq, ho, hov⟩
  obtain ⟨s', hs', ho⟩ := out?_eq_some.1 ho
  cases hs.symm.trans hs'
  have hno := h i s hs d hd
  rw [PathTable.overlap_iff hq ho, hov] at hno
  cases hno

/-- What a state has at a field. -/
def stored (v : Value) (o : Path) : Value := (State.lookup v o).getD .null

section

variable (hg : g.WellFormed) (hapart : State.Apart g.outs)

include hapart

/-- Fields of other steps that are still to be filled in are read by nothing that the step
depends on. -/
theorem sameAt_of_fill {l : List StepId} (hmem : ∀ j ∈ l, j ∈ g.orders.all.order) (hunread : ∀ j ∈ l, ¬ g.Reads i j)
    (hs : g.step? i = some s) {x : Value} (hopen : g.Open x)
    (hfill : State.fill (l.filterMap g.out?) (stored a) x = a) : ∀ d ∈ s.deps, g.SameAt a x d := by
  intro d hd q hq
  have hps : ∀ o ∈ l.filterMap g.out?, o ∈ g.outs ∧ ¬ q.overlaps o := by
    intro o ho
    obtain ⟨j, hj, ho⟩ := List.mem_filterMap.1 ho
    exact ⟨List.mem_filterMap.2 ⟨j, hmem j hj, ho⟩, fun hov => hunread j hj ⟨s, d, q, o, hs, hd, hq, ho, hov⟩⟩
  have hread := hapart.read_fill (f := stored a) hopen (fun o ho => (hps o ho).1) fun o ho => (hps o ho).2
  rw [hfill] at hread
  exact hread

include hg

variable (hl : g.Local) (hresp : g.Respects) (hstruct : g.Structural) (hself : g.SelfFree) (ht : g.Total)
  (hseta : ∀ i ∈ g.orders.all.order, g.Settled a i) (hsetb : ∀ i ∈ g.orders.all.order, g.Settled b i)
  (hlinka : g.Linked a) (hlinkb : g.Linked b)

include hl hresp hstruct hself ht hseta hsetb hlinka hlinkb

/-- The steps are followed in their order. What one of them comes to in a settled state it
comes to before its field and the later ones are filled in. -/
theorem unsigned_eq_of_fill {l : List StepId} (hmem : ∀ i ∈ l, i ∈ g.orders.all.order)
    (hpair : l.Pairwise fun i j => i ≠ j → ¬ g.Reads i j) {x y : Value}
    (hx : g.Open x) (hy : g.Open y)
    (hxy : x.unsigned = y.unsigned) (ha : State.fill (l.filterMap g.out?) (stored a) x = a)
    (hb : State.fill (l.filterMap g.out?) (stored b) y = b) : a.unsigned = b.unsigned := by
  induction l generalizing x y with
  | nil =>
    obtain rfl : x = a := ha
    obtain rfl : y = b := hb
    exact hxy
  | cons i l ih =>
    have hi := hmem i List.mem_cons_self
    obtain ⟨s, hs⟩ := hg.mem_all.1 hi
    obtain ⟨o, hpath, hkeys⟩ := hg.out hs
    have ho : g.out? i = some o := out?_eq_some.2 ⟨s, hs, hpath⟩
    have hout : o ∈ g.outs := List.mem_filterMap.2 ⟨i, hi, ho⟩
    obtain ⟨hlater, hpair⟩ := List.pairwise_cons.1 hpair
    have hunread : ∀ j ∈ i :: l, ¬ g.Reads i j := by
      intro j hj hr
      by_cases hij : i = j
      · exact hself.not_reads i (hij ▸ hr)
      · exact hlater j ((List.mem_cons.1 hj).resolve_left (Ne.symm hij)) hij hr
    -- the step comes to the same in both states
    obtain ⟨u, hu⟩ := exists_target hg ht hlinka hs
    obtain ⟨w, hw⟩ := exists_target hg ht hlinkb hs
    have halike : ∀ d ∈ s.deps, g.AlikeAt x y d := fun d _ p _ => by
      rw [← State.read_unsigned, ← State.read_unsigned, hxy]
    have huw : u.unsigned = w.unsigned := by
      have htarget := target?_alike hg hresp hs halike
      rw [← target?_congr hg hl hs (sameAt_of_fill hapart hmem hunread hs hx ha),
        ← target?_congr hg hl hs (sameAt_of_fill hapart hmem hunread hs hy hb), hu, hw] at htarget
      exact Option.some.inj htarget
    -- and its field holds it
    obtain ⟨u', hu', heu⟩ := (hseta i hi).lookup hstruct hu ho
    obtain ⟨w', hw', hew⟩ := (hsetb i hi).lookup hstruct hw ho
    have hstored : (stored a o).unsigned = (stored b o).unsigned := by
      rw [stored, stored, hu', hw', Option.getD_some, Option.getD_some, heu, hew, huw]
    rw [List.filterMap_cons, ho, State.fill_cons] at ha hb
    refine ih (fun j hj => hmem j (List.mem_cons_of_mem _ hj)) hpair (hapart.open_write hx hout _)
      (hapart.open_write hy hout _) ?_ ha hb
    rw [← State.write_unsigned hkeys, ← State.write_unsigned hkeys, hxy, hstored]

/-- Settled states that agree around the fields of steps count as the same. -/
theorem same_of_settled (hpair : g.orders.all.order.Pairwise fun i j => i ≠ j → ¬ g.Reads i j)
    (ha : g.Open a) (hb : g.Open b) {f : Path → Value}
    (hab : State.fill g.outs f a = State.fill g.outs f b) : a.same b = true := by
  have hrestore : ∀ {v : Value}, g.Linked v → (∀ i ∈ g.orders.all.order, g.Settled v i) →
      g.Open v → State.fill g.outs (stored v) (State.fill g.outs f v) = v := by
    intro v hlink hset hopen
    rw [State.fill_fill hapart]
    refine State.fill_lookup hapart hopen fun o ho => ?_
    obtain ⟨i, hi, ho⟩ := List.mem_filterMap.1 ho
    obtain ⟨s, hs, -⟩ := out?_eq_some.1 ho
    obtain ⟨u, hu⟩ := exists_target hg ht hlink hs
    obtain ⟨there, hthere, -⟩ := (hset i hi).lookup hstruct hu ho
    rw [stored, hthere, Option.getD_some]
  refine Value.same_iff.2 (unsigned_eq_of_fill hg hapart hl hresp hstruct hself ht hseta hsetb hlinka hlinkb
    (fun _ hi => hi) hpair (hapart.open_fill ha f) (hapart.open_fill hb f) (congrArg _ hab) (hrestore hlinka hseta ha)
    (hrestore hlinkb hsetb hb))

end

end Graph

end Settle
