/-
  Settle.Proofs.Declared — reads among the steps as they are declared (see
  `Settle.Declaration`).

  A declared step reads another one when something it depends on, or the source of a
  link, overlaps what the other writes. A declaration compiles only if its immediate
  steps can be ordered, so a chain of immediate steps in which each reads the next one
  and the last the first does not leave a step (`compile_chain`). It may stay at one: the
  edges that steps are ordered by leave a step's reads of its own field out, so a step
  that depends on what it writes compiles (`Mirror.reads_itself`).
-/

import Settle.Proofs.Sorting

namespace Settle

/-! ## Declared steps -/

/-- A step as declared. -/
structure Declared where
  out : Path
  /-- What it depends on; of a link, its source. -/
  deps : List Path
  /-- What a link copies. -/
  source : Option Path
  scheduling : Scheduling
  deriving DecidableEq

/-- The step depends on what the other one writes. -/
def Declared.Reads (s t : Declared) : Prop := ∃ p ∈ s.deps, p.overlaps t.out = true

instance (s t : Declared) : Decidable (s.Reads t) := inferInstanceAs (Decidable (∃ p ∈ s.deps, p.overlaps t.out = true))

/-- The step that an entry declares, if it declares one and its texts are paths. -/
def Entry.declared? (raw : String) (e : Entry) : Option Declared :=
  (Path.parse raw).toOption.bind fun out =>
    match e with
    | .computed c => (c.deps.mapM Path.parse).toOption.map fun deps => ⟨out, deps, none, c.scheduling⟩
    | .link text scheduling => (Path.parse text).toOption.map fun source => ⟨out, [source], some source, scheduling⟩
    | _ => none

/-- The kinds of entries that are no steps. -/
theorem Entry.no_step (e : Entry) (hcomputed : ∀ c, e ≠ .computed c)
    (hlink : ∀ text scheduling, e ≠ .link text scheduling) :
    (∃ deps, e = .source deps) ∨ e = .node ∨ e = .list := by
  cases e with
  | computed c => exact absurd rfl (hcomputed c)
  | link text scheduling => exact absurd rfl (hlink text scheduling)
  | source deps => exact .inl ⟨deps, rfl⟩
  | node => exact .inr (.inl rfl)
  | list => exact .inr (.inr rfl)

/-- The steps that a declaration declares, in order. -/
def Declaration.declared (d : Declaration) : List Declared :=
  d.groups.flatMap fun g => g.entries.filterMap fun e => e.2.declared? e.1

def Draft.declared (x : Draft) : Declared := ⟨x.out, x.deps, x.source, x.scheduling⟩

/-! ## Entries that pass their checks -/

/-- What every step of a fold appends stands at its end in order. -/
theorem foldlM_appends {ε α β γ : Type} {f : β → α → Except ε β} {m : β → List γ} {k : α → List γ}
    (hf : ∀ b a b', f b a = .ok b' → m b' = m b ++ k a) {l : List α} {b b' : β} (h : l.foldlM f b = .ok b') :
    m b' = m b ++ l.flatMap k := by
  induction l generalizing b with
  | nil =>
    cases h
    exact (List.append_nil _).symm
  | cons a l ih =>
    rw [List.foldlM_cons] at h
    obtain ⟨c, hc, h⟩ := Except.bind_eq_ok.1 h
    rw [ih h, hf b a c hc, List.flatMap_cons, List.append_assoc]

namespace Outline

variable {o o' : Outline} {d : Declaration}

def declared (o : Outline) : List Declared := o.drafts.map Draft.declared

theorem addEntry_declared {group raw : String} {e : Entry} (h : o.addEntry group raw e = .ok o') :
    o'.declared = o.declared ++ (e.declared? raw).toList := by
  cases added h with
  | computed hout _ _ _ hdeps => simp [declared, Draft.declared, Entry.declared?, hout, hdeps, Except.toOption]
  | link hout _ _ hsource _ => simp [declared, Draft.declared, Entry.declared?, hout, hsource, Except.toOption]
  | reserved hcomputed hlink hout _ =>
    have hnone : e.declared? raw = none := by
      rcases e.no_step hcomputed hlink with ⟨deps, rfl⟩ | rfl | rfl <;> simp [Entry.declared?]
    rw [hnone]
    exact (List.append_nil _).symm

/-- What every entry appends stands in the order of declaration. -/
theorem ofDeclaration_appends {γ : Type} {m : Outline → List γ} {k : String → Entry → Option γ}
    (hf : ∀ {group raw : String} {e : Entry} {o o' : Outline}, o.addEntry group raw e = .ok o' →
      m o' = m o ++ (k raw e).toList) (h : ofDeclaration d = .ok o) :
    m o = m empty ++ d.groups.flatMap fun g => g.entries.filterMap fun e => k e.1 e.2 := by
  have hgroup : ∀ (o : Outline) (g : Group) (o' : Outline), o.addGroup g = .ok o' →
      m o' = m o ++ g.entries.filterMap fun e => k e.1 e.2 := by
    intro o g o' h
    rw [List.filterMap_eq_flatMap_toList]
    exact foldlM_appends (f := fun (o : Outline) (e : String × Entry) => o.addEntry g.name e.1 e.2)
      (k := fun e => (k e.1 e.2).toList) (fun _ _ _ => hf) h
  exact foldlM_appends hgroup h

/-- The drafts are the declared steps. -/
theorem ofDeclaration_declared (h : ofDeclaration d = .ok o) : o.declared = d.declared :=
  ofDeclaration_appends addEntry_declared h

/-- No link copies the field it writes. -/
def LinksApart (o : Outline) : Prop := ∀ x ∈ o.drafts, x.source ≠ some x.out

theorem LinksApart.add (h : o.LinksApart) {x : Draft} (hx : x.source ≠ some x.out) :
    ∀ y ∈ o.drafts ++ [x], y.source ≠ some y.out := by
  intro y hy
  rcases List.mem_append.1 hy with hy | hy
  · exact h y hy
  · exact List.mem_singleton.1 hy ▸ hx

theorem LinksApart.addEntry (h : o.LinksApart) {group raw : String} {e : Entry} (ho : o.addEntry group raw e = .ok o') :
    o'.LinksApart := by
  cases added ho with
  | computed => exact h.add nofun
  | link _ _ _ _ hne => exact h.add fun he => hne (Option.some.inj he)
  | reserved => exact h

theorem ofDeclaration_linksApart (h : ofDeclaration d = .ok o) : o.LinksApart := by
  have hempty : empty.LinksApart := fun x hx => absurd hx List.not_mem_nil
  exact ofDeclaration_keeps hempty (fun hb he => LinksApart.addEntry hb he) h

end Outline

namespace Graph

variable {d : Declaration} {n : Nat} {g : Graph} {s t : Declared}

section

variable {o : Outline} {x y : Draft} {i j : StepId}

/-- Compiled steps read what their drafts read. -/
theorem reads_of_declared (htable : g.table = o.table) (hsteps : g.steps = stepsFrom o.table 0 o.sorted)
    (hi : o.sorted[i]? = some x) (hj : o.sorted[j]? = some y) (hr : x.declared.Reads y.declared) : g.Reads i j := by
  obtain ⟨p, hp, hov⟩ := hr
  have hstep : ∀ {k : Nat} {z : Draft}, o.sorted[k]? = some z → g.step? k = some (z.step o.table k) := by
    intro k z hz
    rw [step?, hsteps, getElem?_stepsFrom, hz, Nat.zero_add, Option.map_some]
  have hmem : ∀ {k : Nat} {z : Draft}, o.sorted[k]? = some z → z ∈ o.drafts := fun hz =>
    List.mem_mergeSort.1 (List.mem_of_getElem? hz)
  obtain ⟨k, hk⟩ := exists_id?_of_mem (hmem hi) (List.mem_cons_of_mem x.out hp)
  have hdep : k ∈ (x.step o.table i).deps :=
    mem_eraseReps.2 (List.mem_mergeSort.2 (List.mem_filterMap.2 ⟨p, hp, hk⟩))
  refine ⟨x.step o.table i, k, p, y.out, hstep hi, hdep, htable ▸ PathTable.path?_of_id? hk, ?_, hov⟩
  exact out?_eq_some.2 ⟨_, hstep hj, htable ▸ path?_step_out (hmem hj) j⟩

end

/-- Declared steps have compiled ones at positions of their own, which read what they
read. -/
theorem exists_positions (hc : compile d n = .ok g) : ∃ idx : Declared → StepId,
    (∀ s ∈ d.declared, ∃ step, g.step? (idx s) = some step ∧ step.scheduling = s.scheduling) ∧
      (∀ s ∈ d.declared, ∀ t ∈ d.declared, idx s = idx t → s = t) ∧
      ∀ s ∈ d.declared, ∀ t ∈ d.declared, s.Reads t → g.Reads (idx s) (idx t) := by
  obtain ⟨o, ho, htable, hsteps, -⟩ := compile_eq_ok hc
  have hdrafts := Outline.ofDeclaration_declared ho
  have hat : ∀ s : Declared, ∃ i : StepId, s ∈ d.declared → ∃ x, o.sorted[i]? = some x ∧ x.declared = s := by
    intro s
    by_cases hs : s ∈ d.declared
    · rw [← hdrafts] at hs
      obtain ⟨x, hx, rfl⟩ := List.mem_map.1 hs
      obtain ⟨i, hi⟩ := List.mem_iff_getElem?.1 (List.mem_mergeSort.2 hx : x ∈ o.sorted)
      exact ⟨i, fun _ => ⟨x, hi, rfl⟩⟩
    · exact ⟨0, fun h => absurd h hs⟩
  choose idx hidx using hat
  refine ⟨idx, ?_, ?_, ?_⟩
  · intro s hs
    obtain ⟨x, hx, hxs⟩ := hidx s hs
    refine ⟨x.step o.table (idx s), ?_, congrArg Declared.scheduling hxs⟩
    rw [step?, hsteps, getElem?_stepsFrom, hx, Nat.zero_add, Option.map_some]
  · intro s hs t ht he
    obtain ⟨x, hx, hxs⟩ := hidx s hs
    obtain ⟨y, hy, hyt⟩ := hidx t ht
    rw [he, hy] at hx
    rw [← hxs, ← hyt, Option.some.inj hx]
  · intro s hs t ht hr
    obtain ⟨x, hx, hxs⟩ := hidx s hs
    obtain ⟨y, hy, hyt⟩ := hidx t ht
    exact reads_of_declared htable hsteps hx hy (hxs ▸ hyt ▸ hr)

/-- A link of a declaration that compiles does not copy the field it writes. -/
theorem source_ne_out (hc : compile d n = .ok g) (hs : s ∈ d.declared) : s.source ≠ some s.out := by
  obtain ⟨o, ho, -⟩ := compile_eq_ok hc
  rw [← Outline.ofDeclaration_declared ho] at hs
  obtain ⟨x, hx, rfl⟩ := List.mem_map.1 hs
  exact Outline.ofDeclaration_linksApart ho x hx

/-- A chain of reads along which some rank falls, unless it stays at one step, does not
return unless it stays. -/
theorem eq_of_chain {R : Declared → Declared → Prop} {l : List Declared} (rank : Declared → Nat)
    (hrank : ∀ a ∈ s :: l, ∀ b ∈ s :: l, R a b → a = b ∨ rank b < rank a) (hchain : (s :: l ++ [s]).IsChain R) :
    ∀ t ∈ l, t = s := by
  have hmem : ∀ a ∈ s :: l ++ [s], a ∈ s :: l := by
    intro a ha
    rcases List.mem_append.1 ha with ha | ha
    · exact ha
    · exact List.mem_singleton.1 ha ▸ List.mem_cons_self
  have hfall : (s :: l ++ [s]).IsChain fun a b => a = b ∨ rank b < rank a :=
    hchain.imp_of_mem_imp fun a b ha hb hr => hrank a (hmem a ha) b (hmem b hb) hr
  have htrans : Trans (fun a b : Declared => a = b ∨ rank b < rank a) (fun a b => a = b ∨ rank b < rank a)
      (fun a b => a = b ∨ rank b < rank a) := ⟨fun {a b c} hab hbc => by
    rcases hab with rfl | hab
    · exact hbc
    rcases hbc with rfl | hbc
    · exact .inr hab
    · exact .inr (Nat.lt_trans hbc hab)⟩
  have hpair := hfall.pairwise
  intro t ht
  rw [List.cons_append, List.pairwise_cons, List.pairwise_append] at hpair
  obtain ⟨hfirst, -, -, hlast⟩ := hpair
  rcases hfirst t (List.mem_append_left _ ht) with he | hlt
  · exact he.symm
  rcases hlast t ht s List.mem_cons_self with he | hlt'
  · exact he
  · exact absurd hlt (Nat.lt_asymm hlt')

/-- Of a declaration that compiles no chain of immediate steps, each reading the next and
the last the first, passes through two different steps, and no link copies the field it
writes. -/
theorem compile_chain (hc : compile d n = .ok g) :
    (∀ (s : Declared) (l : List Declared), (∀ t ∈ s :: l, t ∈ d.declared ∧ t.scheduling = .immediate) →
      (s :: l ++ [s]).IsChain Declared.Reads → ∀ t ∈ l, t = s) ∧
      ∀ s ∈ d.declared, s.source ≠ some s.out := by
  obtain ⟨idx, hat, hinj, hreads⟩ := exists_positions hc
  obtain ⟨-, -, -, -, -, -, -, -, hb⟩ := compile_checks hc
  refine ⟨fun s l hl hchain => ?_, fun s hs => source_ne_out hc hs⟩
  refine eq_of_chain (fun s => (g.orders.get .immediate).order.idxOf (idx s)) (fun a ha b hb' hr => ?_) hchain
  have hin : ∀ t ∈ s :: l, idx t ∈ (g.orders.get .immediate).order := by
    intro t ht
    obtain ⟨step, hstep, hsched⟩ := hat t (hl t ht).1
    refine (compile_wellFormed hc).mem_order.2 ⟨step, hstep, ?_⟩
    rw [hsched, (hl t ht).2]
    rfl
  by_cases hab : idx a = idx b
  · exact .inl (hinj a (hl a ha).1 b (hl b hb').1 hab)
  · refine .inr (after_of_reads hc ?_ ⟨hin a ha, hin b hb', hreads a (hl a ha).1 b (hl b hb').1 hr⟩ hab)
    have hnone : (g.orders.get .immediate).cyclic = [] := by simpa [ScopeOrder.hasBackEdges] using hb
    rw [hnone]
    exact List.not_mem_nil

end Graph

/-! ## Steps that depend on what they write -/

namespace Mirror

def a : Path := Relay.a

def b : Path := Relay.b

def c : Path := ⟨["b", "c"], by decide⟩

def d : Path := ⟨["d"], by decide⟩

def e : Path := ⟨["d", "e"], by decide⟩

/-- What reads a field. -/
def reader (p : Path) : Derive := .ofRun none fun v => ⟨.ok ((State.read v p).getD .null), [p]⟩

/-- `a` reads itself, `b.c` the object that it is in, and `d` a field of its own. -/
def declaration : Declaration :=
  (Declaration.named "mirror").group
    ((((Group.named "mirror").field "a" (.computed ⟨["a"], reader a, none, .immediate⟩)).field "b.c"
      (.computed ⟨["b"], reader b, none, .immediate⟩)).field "d" (.computed ⟨["d.e"], reader e, none, .immediate⟩))

def graph : Graph where
  moduleId := "mirror"
  table := ⟨[a, b, c, d, e]⟩
  steps := [⟨0, .computed, 0, [0], none, .immediate, "a", "mirror"⟩,
    ⟨1, .computed, 2, [1], none, .immediate, "b.c", "mirror"⟩, ⟨2, .computed, 3, [4], none, .immediate, "d", "mirror"⟩]
  bodies := [.computed (reader a) none, .computed (reader b) none, .computed (reader e) none]
  orders := ⟨⟨[0, 1, 2], []⟩, ⟨[0, 1, 2], []⟩, ⟨[], []⟩⟩
  levels := [[0, 1, 2]]
  reserved := []
  shapeWarnings := []
  generation := 1

theorem compile_eq : Graph.compile declaration 1 = .ok graph := by
  unfold graph
  cbv

theorem declared_eq : declaration.declared =
    [⟨a, [a], none, .immediate⟩, ⟨c, [b], none, .immediate⟩, ⟨d, [e], none, .immediate⟩] := by cbv

/-- Each of the steps is a chain that returns to it, and the declaration compiles. -/
theorem reads_itself : Graph.compile declaration 1 = .ok graph ∧ declaration.declared.length = 3 ∧
    ∀ s ∈ declaration.declared, s.scheduling = .immediate ∧ [s, s].IsChain Declared.Reads := by
  refine ⟨compile_eq, ?_, ?_⟩
  · rw [declared_eq]
    rfl
  · rw [declared_eq]
    decide

theorem mirror_chain : Graph.compile declaration 1 = .ok graph ∧
    (∀ (s : Declared) (l : List Declared), (∀ t ∈ s :: l, t ∈ declaration.declared ∧ t.scheduling = .immediate) →
      (s :: l ++ [s]).IsChain Declared.Reads → ∀ t ∈ l, t = s) ∧
      ∀ s ∈ declaration.declared, s.source ≠ some s.out :=
  ⟨compile_eq, Graph.compile_chain compile_eq⟩

end Mirror

end Settle
