/-
  Settle.Proofs.Graph — what holds of every compiled graph (see `Settle.Graph.Compile`).

  Entries are checked one by one, so what one entry keeps true of the outline holds of
  all its drafts (`Outline.Checked`): a derived field is no list item, no two write the
  same field, and a link depends on its source alone. Ids are positions in the steps and
  in the table, and each scope orders exactly its steps, each once
  (`compile_wellFormed`).
-/

import Settle.Graph.Compile
import Settle.Proofs.PathTable

namespace Settle

theorem Except.bind_eq_ok {ε α β : Type} {x : Except ε α} {f : α → Except ε β} {b : β} :
    (x >>= f) = .ok b ↔ ∃ a, x = .ok a ∧ f a = .ok b := by
  cases x with
  | error e => exact ⟨nofun, fun ⟨a, h, _⟩ => nomatch h⟩
  | ok a => exact ⟨fun h => ⟨a, rfl, h⟩, fun ⟨_, h, hf⟩ => by cases h; exact hf⟩

/-- What every step of a fold keeps holds of its result. -/
theorem foldlM_keeps {ε α β : Type} {f : β → α → Except ε β} {P : β → Prop}
    (hf : ∀ b a b', P b → f b a = .ok b' → P b') {l : List α} {b b' : β} (hb : P b)
    (h : l.foldlM f b = .ok b') : P b' := by
  induction l generalizing b with
  | nil => cases h; exact hb
  | cons a l ih =>
    rw [List.foldlM_cons] at h
    obtain ⟨c, hc, h⟩ := Except.bind_eq_ok.1 h
    exact ih (hf b a c hb hc) h

/-! ## Checked entries -/

/-- What the checks of an entry leave of its draft. -/
structure Draft.Checked (x : Draft) : Prop where
  out : x.out.hasWildcard = false
  link : x.body = .link → ∃ p, x.source = some p ∧ x.deps = [p]

/-- What the checks leave of all entries so far. -/
structure Outline.Checked (o : Outline) : Prop where
  drafts : ∀ x ∈ o.drafts, x.Checked
  outs : (o.drafts.map (·.out)).Nodup
  owned : ∀ x ∈ o.drafts, (o.owners.lookup x.out).isSome

namespace Outline

theorem checked_empty : empty.Checked := ⟨nofun, .nil, nofun⟩

theorem lookup_append_isSome {α β : Type} [DecidableEq α] {l : List (α × β)} {a : α} {e : α × β}
    (h : (l.lookup a).isSome) : ((l ++ [e]).lookup a).isSome := by
  rw [List.lookup_append]
  simp [h]

theorem lookup_append_self {α β : Type} [DecidableEq α] (l : List (α × β)) (a : α) (b : β) :
    ((l ++ [(a, b)]).lookup a).isSome := by
  rw [List.lookup_append]
  simp

/-- An entry that is no step only claims its path. -/
theorem Checked.claim {o : Outline} (h : o.Checked) (out : Path) (group : String) :
    Checked { o with owners := o.owners ++ [(out, group)] } :=
  ⟨h.drafts, h.outs, fun x hx => lookup_append_isSome (h.owned x hx)⟩

/-- A step claims a path that nothing has claimed. -/
theorem Checked.add {o : Outline} (h : o.Checked) {x : Draft} (hx : x.Checked) (group : String)
    (hfree : o.owners.lookup x.out = none) :
    Checked { o with owners := o.owners ++ [(x.out, group)], drafts := o.drafts ++ [x] } where
  drafts := fun y hy => (List.mem_append.1 hy).elim (h.drafts y) fun e => List.mem_singleton.1 e ▸ hx
  outs := by
    have hne : ∀ y ∈ o.drafts, y.out ≠ x.out := fun y hy e => by
      have := h.owned y hy
      rw [e, hfree] at this
      cases this
    refine List.map_append ▸ List.nodup_append.2 ⟨h.outs, List.pairwise_singleton _ _, ?_⟩
    intro p hp q hq
    obtain ⟨y, hy, rfl⟩ := List.mem_map.1 hp
    obtain rfl := List.mem_singleton.1 hq
    exact hne y hy
  owned := fun y hy => by
    rcases List.mem_append.1 hy with hy | hy
    · exact lookup_append_isSome (h.owned y hy)
    · obtain rfl := List.mem_singleton.1 hy
      exact lookup_append_self _ _ _

/-- What a group adds with an entry that passes its checks. -/
inductive Added (group raw : String) (o : Outline) : Entry → Outline → Prop
  | computed {c : Computed} {out : Path} {deps : List Path} : Path.parse raw = .ok out → o.owners.lookup out = none →
      c.deps ≠ [] → out.hasWildcard = false → c.deps.mapM Path.parse = .ok deps →
      Added group raw o (.computed c) { o with
        owners := o.owners ++ [(out, group)]
        drafts := o.drafts ++ [⟨out, deps, none, .computed c.derive c.equality, c.scheduling, group⟩] }
  | link {text : String} {scheduling : Scheduling} {out source : Path} : Path.parse raw = .ok out →
      o.owners.lookup out = none → out.hasWildcard = false → Path.parse text = .ok source → source ≠ out →
      Added group raw o (.link text scheduling) { o with
        owners := o.owners ++ [(out, group)]
        drafts := o.drafts ++ [⟨out, [source], some source, .link, scheduling, group⟩] }
  | reserved {e : Entry} {out : Path} : (∀ c, e ≠ .computed c) → (∀ text scheduling, e ≠ .link text scheduling) →
      Path.parse raw = .ok out → o.owners.lookup out = none →
      Added group raw o e { o with owners := o.owners ++ [(out, group)], reserved := o.reserved ++ [out] }

theorem parse_of_parsePath {raw context : String} {p : Path} (h : Error.parsePath raw context = .ok p) :
    Path.parse raw = .ok p := by
  unfold Error.parsePath at h
  cases hp : Path.parse raw with
  | ok q =>
    rw [hp] at h
    exact congrArg Except.ok (Except.ok.inj h)
  | error cause =>
    rw [hp] at h
    cases h

theorem mapM_parsePath {context : String} {l : List String} {ps : List Path}
    (h : l.mapM (fun t => Error.parsePath t context) = .ok ps) : l.mapM Path.parse = .ok ps := by
  induction l generalizing ps with
  | nil =>
    cases h
    rfl
  | cons t l ih =>
    rw [List.mapM_cons] at h ⊢
    obtain ⟨p, hp, h⟩ := Except.bind_eq_ok.1 h
    obtain ⟨qs, hqs, h⟩ := Except.bind_eq_ok.1 h
    cases h
    rw [parse_of_parsePath hp, ih hqs]
    rfl

theorem added {group raw : String} {e : Entry} {o o' : Outline} (h : o.addEntry group raw e = .ok o') :
    Added group raw o e o' := by
  obtain ⟨out, hout, h⟩ := Except.bind_eq_ok.1 h
  have hout := parse_of_parsePath hout
  cases hfree : o.owners.lookup out with
  | some first => simp [hfree, bind, Except.bind, throw, throwThe, MonadExceptOf.throw] at h
  | none =>
    simp only [hfree] at h
    cases e with
    | computed c =>
      by_cases hd : c.deps = []
      · simp [hd, bind, Except.bind, throw, throwThe, MonadExceptOf.throw] at h
      by_cases hw : out.hasWildcard
      · simp [hd, hw, bind, Except.bind, throw, throwThe, MonadExceptOf.throw] at h
      simp only [hd, hw, if_false, Bool.false_eq_true] at h
      obtain ⟨deps, hdeps, h⟩ := Except.bind_eq_ok.1 h
      cases h
      exact .computed hout hfree hd (by simpa using hw) (mapM_parsePath hdeps)
    | link text scheduling =>
      by_cases hw : out.hasWildcard
      · simp [hw, bind, Except.bind, throw, throwThe, MonadExceptOf.throw] at h
      simp only [hw, if_false, Bool.false_eq_true] at h
      obtain ⟨source, hsource, h⟩ := Except.bind_eq_ok.1 h
      by_cases hs : source = out
      · simp [hs, bind, Except.bind, throw, throwThe, MonadExceptOf.throw] at h
      simp only [hs, if_false] at h
      cases h
      exact .link hout hfree (by simpa using hw) (parse_of_parsePath hsource) hs
    | source deps =>
      obtain ⟨-, -, h⟩ := Except.bind_eq_ok.1 h
      cases h
      exact .reserved nofun nofun hout hfree
    | node =>
      cases h
      exact .reserved nofun nofun hout hfree
    | list =>
      cases h
      exact .reserved nofun nofun hout hfree

theorem addEntry_checked {group raw : String} {e : Entry} {o o' : Outline} (h : o.Checked)
    (ho : o.addEntry group raw e = .ok o') : o'.Checked := by
  cases added ho with
  | @computed c out deps _ hfree _ hw _ =>
    exact h.add (x := ⟨out, deps, none, .computed c.derive c.equality, c.scheduling, group⟩) ⟨hw, nofun⟩ group hfree
  | @link _ scheduling out source _ hfree hw _ _ =>
    exact h.add (x := ⟨out, [source], some source, .link, scheduling, group⟩)
      ⟨hw, fun _ => ⟨source, rfl, rfl⟩⟩ group hfree
  | @reserved _ out _ _ _ _ =>
    exact ⟨(h.claim out group).drafts, (h.claim out group).outs, (h.claim out group).owned⟩

/-- What every entry keeps holds of the outline of a declaration. -/
theorem ofDeclaration_keeps {P : Outline → Prop} (hempty : P empty)
    (hadd : ∀ {group raw : String} {e : Entry} {o o' : Outline}, P o → o.addEntry group raw e = .ok o' → P o')
    {d : Declaration} {o : Outline} (h : ofDeclaration d = .ok o) : P o := by
  have hgroup : ∀ (o : Outline) (g : Group) (o' : Outline), P o → o.addGroup g = .ok o' → P o' :=
    fun _ _ _ hb hg => foldlM_keeps (fun _ _ _ => hadd) hb hg
  exact foldlM_keeps hgroup hempty h

theorem ofDeclaration_checked {d : Declaration} {o : Outline} (h : ofDeclaration d = .ok o) : o.Checked :=
  ofDeclaration_keeps checked_empty addEntry_checked h

theorem sorted_le (o : Outline) : o.sorted.Pairwise fun x y => x.out.le y.out = true :=
  @List.pairwise_mergeSort Draft (fun x y => x.out.le y.out) (fun _ _ _ => Path.le_trans)
    (fun x y => Path.le_total x.out y.out) o.drafts

theorem Checked.nodup_sorted {o : Outline} (h : o.Checked) : (o.sorted.map (·.out)).Nodup :=
  ((List.mergeSort_perm o.drafts _).map (·.out)).nodup_iff.2 h.outs

end Outline

/-! ## Steps -/

/-- The step that a draft becomes under an id. -/
def Draft.step (table : PathTable) (i : StepId) (x : Draft) : Step where
  id := i
  kind := match x.body with
    | .computed _ _ => .computed
    | .link => .link
  out := (table.id? x.out).getD 0
  deps := (x.deps.filterMap table.id?).mergeSort.eraseReps
  source := x.source.bind table.id?
  scheduling := x.scheduling
  label := x.out.text
  group := x.group

theorem Step.mem_inputs {s : Step} {p : PathId} : p ∈ s.inputs ↔ p ∈ s.deps ∨ p = s.out := by
  simp [inputs, mem_eraseReps]

namespace Graph

theorem getElem?_stepsFrom (table : PathTable) (n i : Nat) (l : List Draft) :
    (stepsFrom table n l)[i]? = (l[i]?).map (Draft.step table (n + i)) := by
  induction l generalizing n i with
  | nil => simp [stepsFrom]
  | cons x l ih =>
    cases i with
    | zero => rfl
    | succ i =>
      rw [stepsFrom, List.getElem?_cons_succ, List.getElem?_cons_succ, ih, Nat.add_right_comm]
      rfl

theorem length_stepsFrom (table : PathTable) (n : Nat) (l : List Draft) : (stepsFrom table n l).length = l.length := by
  induction l generalizing n with
  | nil => rfl
  | cons x l ih => rw [stepsFrom, List.length_cons, ih, List.length_cons]

theorem ids_stepsFrom (table : PathTable) (n : Nat) (l : List Draft) :
    (stepsFrom table n l).map (·.id) = List.range' n l.length := by
  induction l generalizing n with
  | nil => rfl
  | cons x l ih => rw [stepsFrom, List.map_cons, ih, List.length_cons, List.range'_succ]

/-! ## Orders -/

/-- Peeling off levels loses no step and repeats none. -/
theorem levels_perm (table : PathTable) (l : List Step) :
    ((Order.levels table l).1.flatten ++ (Order.levels table l).2).Perm l := by
  fun_induction Order.levels table l with
  | case1 l _ more left heq ih =>
    rw [heq] at ih
    have hsplit := List.filter_append_perm (fun s => !Order.blocked table l s) l
    simp only [Bool.not_not] at hsplit
    rw [List.flatten_cons, List.append_assoc]
    exact (List.Perm.append_left _ ih).trans hsplit
  | case2 l _ => rfl

theorem orderOf_perm (table : PathTable) (steps : List Step) (scope : Scope) :
    (orderOf table steps scope).1.order.Perm ((steps.filter fun s => scope.includes s.scheduling).map (·.id)) := by
  have h := (levels_perm table (steps.filter fun s => scope.includes s.scheduling)).map (·.id)
  simpa [orderOf, List.map_append, List.map_flatten] using h

/-! ## Compiled graphs -/

/-- What holds of every compiled graph. -/
structure WellFormed (g : Graph) : Prop where
  table : g.table.WellFormed
  length_bodies : g.bodies.length = g.steps.length
  id_eq : ∀ {i s}, g.step? i = some s → s.id = i
  out : ∀ {i s}, g.step? i = some s → ∃ p, g.table.path? s.out = some p ∧ p.hasWildcard = false
  dep : ∀ {i s d}, g.step? i = some s → d ∈ s.deps → d < g.table.size
  /-- No two steps write the same field. -/
  out_inj : ∀ {i j s t}, g.step? i = some s → g.step? j = some t → s.out = t.out → i = j
  link : ∀ {i s}, g.step? i = some s → g.body? i = some .link → ∃ d ∈ s.deps, s.source = some d
  nodup : ∀ scope, (g.orders.get scope).order.Nodup
  mem_order : ∀ {scope i},
    i ∈ (g.orders.get scope).order ↔ ∃ s, g.step? i = some s ∧ scope.includes s.scheduling

/-- What a declaration that compiles is checked for, what of it is kept, and the graph it
compiles to. -/
theorem compile_outline {d : Declaration} {n : Nat} {g : Graph} (h : compile d n = .ok g) :
    ∃ o, Outline.ofDeclaration d = .ok o ∧ g.reserved = o.reserved ∧ g.table = o.table ∧
      g.steps = stepsFrom o.table 0 o.sorted ∧ g.bodies = o.sorted.map (·.body) ∧
      (∀ scope, g.orders.get scope = (orderOf g.table g.steps scope).1) ∧
      g.levels = (orderOf g.table g.steps .all).2 ∧ Order.linkCycle g.steps = none ∧
      (g.orders.get .immediate).hasBackEdges = false := by
  obtain ⟨o, ho, h⟩ := Except.bind_eq_ok.1 h
  refine ⟨o, ho, ?_⟩
  cases hc : Order.linkCycle (stepsFrom o.table 0 o.sorted) with
  | some out => simp [hc, bind, Except.bind, throw, throwThe, MonadExceptOf.throw] at h
  | none =>
    simp only [hc] at h
    by_cases hb : (orderOf o.table (stepsFrom o.table 0 o.sorted) .immediate).1.hasBackEdges
    · simp [hb, bind, Except.bind, throw, throwThe, MonadExceptOf.throw] at h
    · simp only [hb, if_false, Bool.false_eq_true] at h
      cases h
      exact ⟨rfl, rfl, rfl, rfl, fun scope => by cases scope <;> rfl, rfl, hc, Bool.eq_false_iff.2 hb⟩

/-- What a declaration that compiles is checked for, and the graph it compiles to. -/
theorem compile_checks {d : Declaration} {n : Nat} {g : Graph} (h : compile d n = .ok g) :
    ∃ o, Outline.ofDeclaration d = .ok o ∧ g.table = o.table ∧ g.steps = stepsFrom o.table 0 o.sorted ∧
      g.bodies = o.sorted.map (·.body) ∧ (∀ scope, g.orders.get scope = (orderOf g.table g.steps scope).1) ∧
      g.levels = (orderOf g.table g.steps .all).2 ∧ Order.linkCycle g.steps = none ∧
      (g.orders.get .immediate).hasBackEdges = false := by
  obtain ⟨o, ho, -, hchecks⟩ := compile_outline h
  exact ⟨o, ho, hchecks⟩

/-- The graph a checked outline compiles to. -/
theorem compile_eq_ok {d : Declaration} {n : Nat} {g : Graph} (h : compile d n = .ok g) :
    ∃ o, Outline.ofDeclaration d = .ok o ∧ g.table = o.table ∧ g.steps = stepsFrom o.table 0 o.sorted ∧
      g.bodies = o.sorted.map (·.body) ∧ ∀ scope, g.orders.get scope = (orderOf g.table g.steps scope).1 := by
  obtain ⟨o, ho, htable, hsteps, hbodies, horders, -⟩ := compile_checks h
  exact ⟨o, ho, htable, hsteps, hbodies, horders⟩

section

variable {o : Outline} {x y : Draft}

theorem exists_id?_of_mem (hx : x ∈ o.drafts) {p : Path} (hp : p ∈ x.out :: x.deps) : ∃ k, o.table.id? p = some k :=
  PathTable.exists_id? (PathTable.mem_ofPaths.2
    ⟨p, List.mem_flatMap.2 ⟨x, List.mem_mergeSort.2 hx, hp⟩, Path.covers_refl p⟩)

/-- The field of a compiled step is the one that its draft names. -/
theorem path?_step_out (hx : x ∈ o.drafts) (i : Nat) : o.table.path? (x.step o.table i).out = some x.out := by
  obtain ⟨k, hk⟩ := exists_id?_of_mem hx (p := x.out) List.mem_cons_self
  simp only [Draft.step, hk, Option.getD_some]
  exact PathTable.path?_of_id? hk

theorem sorted_inj (hok : o.Checked) {i j : Nat} (hi : o.sorted[i]? = some x) (hj : o.sorted[j]? = some y)
    (hxy : x.out = y.out) : i = j := by
  obtain ⟨hi, hi'⟩ := List.getElem?_eq_some_iff.1 hi
  obtain ⟨hj, hj'⟩ := List.getElem?_eq_some_iff.1 hj
  have hi₂ : i < (o.sorted.map (·.out)).length := by simpa using hi
  have hj₂ : j < (o.sorted.map (·.out)).length := by simpa using hj
  have hmap : (o.sorted.map (·.out))[i] = (o.sorted.map (·.out))[j] := by
    rw [List.getElem_map, List.getElem_map, hi', hj', hxy]
  exact (List.getElem_inj hok.nodup_sorted).1 hmap

end

theorem compile_wellFormed {d : Declaration} {n : Nat} {g : Graph} (h : compile d n = .ok g) : g.WellFormed := by
  obtain ⟨o, ho, htable, hsteps, hbodies, horders⟩ := compile_eq_ok h
  have hok := Outline.ofDeclaration_checked ho
  have hstep : ∀ {i s}, g.step? i = some s → ∃ x ∈ o.drafts, o.sorted[i]? = some x ∧ s = x.step o.table i := by
    intro i s hs
    rw [step?, hsteps, getElem?_stepsFrom, Nat.zero_add] at hs
    obtain ⟨x, hx, rfl⟩ := Option.map_eq_some_iff.1 hs
    exact ⟨x, List.mem_mergeSort.1 (List.mem_of_getElem? hx), hx, rfl⟩
  have hwf : o.table.WellFormed := PathTable.ofPaths_wellFormed _
  refine ⟨htable ▸ hwf, ?_, ?_, ?_, ?_, ?_, ?_, ?_, ?_⟩
  · rw [hbodies, hsteps, List.length_map, length_stepsFrom]
  · intro i s hs
    obtain ⟨x, -, -, rfl⟩ := hstep hs
    rfl
  · intro i s hs
    obtain ⟨x, hx, -, rfl⟩ := hstep hs
    exact ⟨x.out, htable ▸ path?_step_out hx i, (hok.drafts x hx).out⟩
  · intro i s k hs hk
    obtain ⟨x, hx, -, rfl⟩ := hstep hs
    obtain ⟨p, -, hp⟩ := List.mem_filterMap.1 (List.mem_mergeSort.1 (mem_eraseReps.1 hk))
    exact htable ▸ PathTable.lt_size (PathTable.path?_of_id? hp)
  · intro i j s t hs ht he
    obtain ⟨x, hx, hxi, rfl⟩ := hstep hs
    obtain ⟨y, hy, hyj, rfl⟩ := hstep ht
    exact sorted_inj hok hxi hyj (Option.some.inj ((path?_step_out hx i).symm.trans (he ▸ path?_step_out hy j)))
  · intro i s hs hb
    obtain ⟨x, hx, hxi, rfl⟩ := hstep hs
    rw [body?, hbodies, List.getElem?_map, hxi] at hb
    obtain ⟨p, hp, hd⟩ := (hok.drafts x hx).link (Option.some.inj hb)
    obtain ⟨k, hk⟩ := exists_id?_of_mem hx (p := p) (by simp [hd])
    exact ⟨k, by simp [Draft.step, hd, hk, mem_eraseReps], by simp [Draft.step, hp, hk]⟩
  · intro scope
    rw [horders, (orderOf_perm _ _ _).nodup_iff]
    refine List.Nodup.sublist (List.Sublist.map _ List.filter_sublist) ?_
    rw [hsteps, ids_stepsFrom]
    exact List.nodup_range'
  · intro scope i
    rw [horders, (orderOf_perm _ _ _).mem_iff, List.mem_map]
    constructor
    · intro hcase
      obtain ⟨s, hs, rfl⟩ := hcase
      obtain ⟨hs, hsc⟩ := List.mem_filter.1 hs
      obtain ⟨j, hj⟩ := List.mem_iff_getElem?.1 hs
      obtain ⟨x, -, -, rfl⟩ := hstep hj
      exact ⟨_, hj, hsc⟩
    · intro ⟨s, hs, hsc⟩
      obtain ⟨x, -, -, rfl⟩ := hstep hs
      exact ⟨_, List.mem_filter.2 ⟨List.mem_of_getElem? hs, hsc⟩, rfl⟩

end Graph

end Settle
