/-
  Settle.Proofs.GraphCache — what the compile cache answers (see `Settle.Graph.Cache`).

  On a hit the wiring of an earlier graph is handed out with a graph compiled just now.
  The digest covers the paths, the reserved paths, and kind, scheduling, field and
  dependencies of each step (`Graph.Content`). Names, groups, sources and bodies of steps
  are not covered, and no table is made of them: two compiled graphs of one generation
  and one content have one wiring (`ofGraph_eq_of_content`).

  `run` is a history of calls, of any modules and in any order, with calls that fail
  among them. The cache holds of each module what its latest answer was (`Kept`), and so:
  - `run_answers`: graph and wiring of every answer match, the bodies are those of the
    declaration just given, the generation moves by one where the digest is not that of
    the module's latest answer and stays otherwise, and a failing call and the calls of
    other modules change nothing;
  - `content_eq_of_generation`: two answers of one module with one generation are of one
    graph, however many others came between them.

  Both take it that the graphs asked for are told apart by their digests (`ToldApart`).
-/

import Settle.Proofs.Executor

namespace Settle

/-! ## What a digest covers -/

/-- What the digest covers of a step. -/
def Step.hashed (s : Step) : StepKind × Scheduling × PathId × List PathId := (s.kind, s.scheduling, s.out, s.deps)

/-- A step less all that the digest does not cover, its id apart. -/
def Step.bare (s : Step) : Step := { s with source := none, label := "", group := "" }

theorem Step.bare_eq {s t : Step} (hid : s.id = t.id) (h : s.hashed = t.hashed) : s.bare = t.bare := by
  simp only [hashed, Prod.mk.injEq] at h
  obtain ⟨hkind, hscheduling, hout, hdeps⟩ := h
  simp only [bare, hid, hkind, hscheduling, hout, hdeps]

namespace Order

theorem blocked_bare (table : PathTable) (l : List Step) (s : Step) :
    blocked table (l.map Step.bare) s.bare = blocked table l s := by
  simp only [blocked, List.any_map]
  rfl

theorem filter_blocked_bare (table : PathTable) (f : Bool → Bool) (l : List Step) :
    (l.map Step.bare).filter (fun s => f (blocked table (l.map Step.bare) s)) =
      (l.filter fun s => f (blocked table l s)).map Step.bare := by
  rw [List.filter_map]
  congr 2
  funext s
  exact congrArg f (blocked_bare table l s)

theorem waiting_bare (table : PathTable) (l : List Step) :
    waiting table (l.map Step.bare) = (waiting table l).map Step.bare := filter_blocked_bare table id l

/-- Levels go by ids, fields and dependencies alone. -/
theorem levels_bare (table : PathTable) (l : List Step) :
    levels table (l.map Step.bare) = ((levels table l).1.map (List.map Step.bare), (levels table l).2.map Step.bare) := by
  fun_induction levels table l with
  | case1 l h more left heq ih =>
    rw [levels, waiting_bare, List.length_map, List.length_map, if_pos h, ih, heq, filter_blocked_bare table (!·) l]
    rfl
  | case2 l h =>
    rw [levels, waiting_bare, List.length_map, List.length_map, if_neg h]
    rfl

end Order

namespace Graph

theorem orderOf_bare (table : PathTable) (steps : List Step) (scope : Scope) :
    orderOf table (steps.map Step.bare) scope = orderOf table steps scope := by
  have hfilter : (steps.map Step.bare).filter (fun s => scope.includes s.scheduling) =
      (steps.filter fun s => scope.includes s.scheduling).map Step.bare := List.filter_map
  have hids : (fun l : List Step => l.map (·.id)) ∘ List.map Step.bare = fun l => l.map (·.id) := by
    funext l
    rw [Function.comp_apply, List.map_map]
    rfl
  simp only [orderOf, hfilter, Order.levels_bare, List.map_map, hids]
  rfl

/-- What the digest is taken of. -/
structure Content where
  table : PathTable
  steps : List (StepKind × Scheduling × PathId × List PathId)
  reserved : List Path
  deriving DecidableEq

def content (g : Graph) : Content := ⟨g.table, g.steps.map Step.hashed, g.reserved⟩

variable {d d' : Declaration} {n n' : Nat} {g g' : Graph}

/-- Ids are positions, so the content tells the bare steps. -/
theorem map_bare_eq (hg : g.WellFormed) (hg' : g'.WellFormed) (h : g.content = g'.content) :
    g.steps.map Step.bare = g'.steps.map Step.bare := by
  have hsteps : g.steps.map Step.hashed = g'.steps.map Step.hashed := congrArg Content.steps h
  refine List.ext_getElem? fun i => ?_
  have hi := congrArg (·[i]?) hsteps
  simp only [List.getElem?_map] at hi ⊢
  cases hs : g.steps[i]? with
  | none =>
    rw [hs] at hi
    rw [Option.map_eq_none_iff.1 hi.symm]
  | some s =>
    rw [hs] at hi
    obtain ⟨t, ht, hst⟩ := Option.map_eq_some_iff.1 hi.symm
    rw [ht, Option.map_some, Option.map_some, Step.bare_eq ((hg.id_eq hs).trans (hg'.id_eq ht).symm) hst.symm]

/-- The tables of a graph are made of its paths, its bare steps and its orders. -/
theorem ofGraph_congr (htable : g.table = g'.table) (hsteps : g.steps.map Step.bare = g'.steps.map Step.bare)
    (horders : ∀ scope, g.orders.get scope = g'.orders.get scope) (hgen : g.generation = g'.generation) :
    Wiring.ofGraph g = Wiring.ofGraph g' := by
  have hmap : ∀ {α : Type} (f : Step → α), (∀ s, f s.bare = f s) → g.steps.map f = g'.steps.map f := by
    intro α f hf
    have h := congrArg (List.map f) hsteps
    rw [List.map_map, List.map_map] at h
    rwa [show f ∘ Step.bare = f from funext hf] at h
  have hids : ∀ f : Step → Bool, (∀ s, f s.bare = f s) →
      (g.steps.filter f).map (·.id) = (g'.steps.filter f).map (·.id) := by
    intro f hf
    have h := congrArg (fun l => (l.filter f).map (·.id)) hsteps
    simp only [List.filter_map, List.map_map] at h
    rwa [show f ∘ Step.bare = f from funext hf] at h
  have hexact : g.exact = g'.exact := funext fun p => hids _ fun s => rfl
  have hunder : g.under = g'.under := by
    funext p
    simp only [under, htable]
    exact hids _ fun s => rfl
  have hall : ∀ {α : Type} (f : ScopeOrder → α), g.orders.map f = g'.orders.map f := by
    intro α f
    have h := fun scope => congrArg f (horders scope)
    simp only [PerScope.map, PerScope.mk.injEq]
    exact ⟨h .all, h .immediate, h .deferred⟩
  simp only [Wiring.ofGraph, htable, hexact, hunder, hgen, hall, hmap (·.inputs) fun _ => rfl,
    hmap (·.out) fun _ => rfl, hmap (fun s => decide (s.scheduling = .deferred)) fun _ => rfl]

/-- Compiled graphs of one generation and one content have one wiring. -/
theorem ofGraph_eq_of_content (hg : compile d n = .ok g) (hg' : compile d' n' = .ok g') (h : g.content = g'.content)
    (hgen : g.generation = g'.generation) : Wiring.ofGraph g = Wiring.ofGraph g' := by
  have htable : g.table = g'.table := congrArg Content.table h
  have hsteps := map_bare_eq (compile_wellFormed hg) (compile_wellFormed hg') h
  refine ofGraph_congr htable hsteps (fun scope => ?_) hgen
  obtain ⟨_, -, -, -, -, ho⟩ := compile_eq_ok hg
  obtain ⟨_, -, -, -, -, ho'⟩ := compile_eq_ok hg'
  rw [ho, ho', ← orderOf_bare, ← orderOf_bare g'.table, htable, hsteps]

/-! ## Declarations and generations -/

/-- The generation is written on the graph, and nothing else goes by it. -/
theorem compile_generation (d : Declaration) (n m : Nat) :
    compile d m = (compile d n).map fun g => { g with generation := m } := by
  unfold compile
  cases Outline.ofDeclaration d with
  | error e => rfl
  | ok o =>
    simp only [bind, Except.bind]
    cases Order.linkCycle (stepsFrom o.table 0 o.sorted) with
    | some out => rfl
    | none =>
      by_cases hb : (orderOf o.table (stepsFrom o.table 0 o.sorted) .immediate).1.hasBackEdges
      · simp only [pure, Except.pure, hb, if_true]
        rfl
      · simp only [pure, Except.pure, hb, Bool.false_eq_true, if_false]
        rfl

theorem compile_renumbered (h : compile d n = .ok g) (m : Nat) : compile d m = .ok { g with generation := m } := by
  rw [compile_generation d n, h]
  rfl

end Graph

/-! ## Bodies -/

namespace Outline

/-- A draft of the outline writes the path of the entry and has its functions. -/
def Takes (o : Outline) (raw : String) (c : Computed) : Prop :=
  ∃ x ∈ o.drafts, Path.parse raw = .ok x.out ∧ x.body = .computed c.derive c.equality

theorem drafts_addEntry {group raw : String} {e : Entry} {o o' : Outline} (h : o.addEntry group raw e = .ok o') :
    (∀ x ∈ o.drafts, x ∈ o'.drafts) ∧ ∀ c, e = .computed c → o'.Takes raw c := by
  cases added h with
  | computed hout _ _ _ _ =>
    refine ⟨fun x hx => List.mem_append_left _ hx, ?_⟩
    intro c' hc'
    cases hc'
    exact ⟨_, List.mem_append_right _ (List.mem_singleton.2 rfl), hout, rfl⟩
  | link _ _ _ _ _ => exact ⟨fun x hx => List.mem_append_left _ hx, nofun⟩
  | reserved hcomputed _ _ _ => exact ⟨fun _ hx => hx, fun c hc => absurd hc (hcomputed c)⟩

/-- What one step of a fold brings about for its element, and every step keeps, holds at
the end for all elements. -/
theorem foldlM_brings {ε α β : Type} {f : β → α → Except ε β} {P : α → β → Prop}
    (hbrings : ∀ b a b', f b a = .ok b' → P a b') (hkeeps : ∀ x b a b', P x b → f b a = .ok b' → P x b')
    {l : List α} {b b' : β} (h : l.foldlM f b = .ok b') : ∀ a ∈ l, P a b' := by
  induction l generalizing b with
  | nil => exact nofun
  | cons a l ih =>
    rw [List.foldlM_cons] at h
    obtain ⟨c, hc, hl⟩ := Except.bind_eq_ok.1 h
    intro x hx
    rcases List.mem_cons.1 hx with rfl | hx
    · exact foldlM_keeps (hkeeps x) (hbrings b x c hc) hl
    · exact ih hl x hx

theorem Takes.mono {raw : String} {c : Computed} {o o' : Outline} (h : ∀ x ∈ o.drafts, x ∈ o'.drafts)
    (ht : o.Takes raw c) : o'.Takes raw c := by
  obtain ⟨x, hx, hp, hb⟩ := ht
  exact ⟨x, h x hx, hp, hb⟩

theorem drafts_addGroup {g : Group} {o o' : Outline} (h : o.addGroup g = .ok o') : ∀ x ∈ o.drafts, x ∈ o'.drafts := by
  intro x hx
  exact foldlM_keeps (P := fun o : Outline => x ∈ o.drafts) (fun _ _ _ hb hf => (drafts_addEntry hf).1 x hb) hx h

theorem addGroup_takes {g : Group} {o o' : Outline} (h : o.addGroup g = .ok o') :
    ∀ raw c, (raw, .computed c) ∈ g.entries → o'.Takes raw c := by
  intro raw c hm
  refine foldlM_brings (P := fun (e : String × Entry) o => ∀ c, e.2 = .computed c → o.Takes e.1 c) ?_ ?_ h _ hm c rfl
  · intro b e b' he
    exact (drafts_addEntry he).2
  · intro e b e' b' hb he c hc
    exact (hb c hc).mono (drafts_addEntry he).1

theorem ofDeclaration_takes {d : Declaration} {o : Outline} (h : ofDeclaration d = .ok o) :
    ∀ g ∈ d.groups, ∀ raw c, (raw, .computed c) ∈ g.entries → o.Takes raw c := by
  refine foldlM_brings (P := fun (g : Group) o => ∀ raw c, (raw, .computed c) ∈ g.entries → o.Takes raw c) ?_ ?_ h
  · intro b g b' hg
    exact addGroup_takes hg
  · intro g b g' b' hb hg raw c hm
    exact (hb raw c hm).mono (drafts_addGroup hg)

end Outline

namespace Graph

/-- The graph has a step that writes the path of the entry and has its functions. -/
def Carries (g : Graph) (raw : String) (c : Computed) : Prop :=
  ∃ p i s, Path.parse raw = .ok p ∧ g.step? i = some s ∧ g.table.path? s.out = some p ∧
    g.body? i = some (.computed c.derive c.equality)

theorem compile_carries {d : Declaration} {n : Nat} {g : Graph} (h : compile d n = .ok g) :
    ∀ group ∈ d.groups, ∀ raw c, (raw, .computed c) ∈ group.entries → g.Carries raw c := by
  obtain ⟨o, ho, htable, hsteps, hbodies, -⟩ := compile_eq_ok h
  intro group hgroup raw c hm
  obtain ⟨x, hx, hp, hb⟩ := Outline.ofDeclaration_takes ho group hgroup raw c hm
  have hsorted : x ∈ o.sorted := List.mem_mergeSort.2 hx
  obtain ⟨i, hi⟩ := List.mem_iff_getElem?.1 hsorted
  refine ⟨x.out, i, x.step o.table i, hp, ?_, htable ▸ path?_step_out hx i, ?_⟩
  · rw [step?, hsteps, getElem?_stepsFrom, hi, Nat.zero_add]
    rfl
  · rw [body?, hbodies, List.getElem?_map, hi, ← hb]
    rfl

end Graph

/-! ## The cache -/

namespace GraphCache

variable {c c' : GraphCache} {d : Declaration} {g : Graph} {a : Answer}

/-- The answer for a graph of the module, and the cache after it. -/
def reply (c : GraphCache) (m : String) (g : Graph) : Answer × GraphCache :=
  let next := { g with generation := c.generation m + 1 }
  match (c.entries.lookup m).filter (·.1 = g.digest) with
  | some (_, wiring) =>
    (⟨⟨{ g with generation := c.generation m }, wiring⟩, true⟩, { c with hits := c.hits + 1 })
  | none =>
    (⟨⟨next, .ofGraph next⟩, false⟩,
      { c with
        entries := Group.upsert m (g.digest, .ofGraph next) c.entries
        generations := Group.upsert m (c.generation m + 1) c.generations
        misses := c.misses + 1 })

/-- Whether a call fails does not depend on the cache. -/
theorem get_eq (c : GraphCache) (d : Declaration) : c.get d = (Graph.compile d 1).map (c.reply d.moduleId) := by
  have hcompile := Graph.compile_generation d 1 (max 1 (c.generation d.moduleId))
  cases hd : Graph.compile d 1 with
  | error e =>
    rw [hd] at hcompile
    simp only [get, hcompile]
    rfl
  | ok g =>
    rw [hd] at hcompile
    have hdigest : ∀ n, Graph.digest { g with generation := n } = g.digest := fun _ => rfl
    simp only [get, hcompile, Except.map, bind, Except.bind, reply, hdigest]
    generalize (c.entries.lookup d.moduleId).filter (fun e => decide (e.1 = g.digest)) = kept
    rcases kept with _ | ⟨digest, wiring⟩ <;> rfl

/-- What an answer for a graph of the module does to the cache. -/
structure Replied (c : GraphCache) (m : String) (g : Graph) (a : Answer) (c' : GraphCache) : Prop where
  graph : a.compiled.graph = { g with generation := c'.generation m }
  reused : a.reused = true ↔ (c.entries.lookup m).map (·.1) = some g.digest
  generation : c'.generation m = if a.reused then c.generation m else c.generation m + 1
  entry : c'.entries.lookup m = some (g.digest, a.compiled.wiring)
  kept : a.reused = true → c.entries.lookup m = some (g.digest, a.compiled.wiring)
  made : a.reused = false → a.compiled.wiring = .ofGraph a.compiled.graph
  others : ∀ m', m' ≠ m → c'.generation m' = c.generation m' ∧ c'.entries.lookup m' = c.entries.lookup m'
  hits : c'.hits = c.hits + a.reused.toNat
  misses : c'.misses = c.misses + (!a.reused).toNat

theorem generation_upsert (c : GraphCache) (m m' : String) (n : Nat) (entries : List (String × UInt64 × Wiring))
    (hits misses : Nat) : generation ⟨entries, Group.upsert m n c.generations, hits, misses⟩ m' =
      if m' = m then n else c.generation m' := by
  simp only [generation, Group.lookup_upsert]
  split <;> rfl

theorem reply_replied (c : GraphCache) (m : String) (g : Graph) :
    Replied c m g (c.reply m g).1 (c.reply m g).2 := by
  unfold reply
  cases hkept : (c.entries.lookup m).filter (fun e => decide (e.1 = g.digest)) with
  | some e =>
    obtain ⟨digest, wiring⟩ := e
    obtain ⟨hl, hd⟩ := Option.filter_eq_some_iff.1 hkept
    obtain rfl : digest = g.digest := of_decide_eq_true hd
    exact {
      graph := rfl
      reused := by simp [hl]
      generation := rfl
      entry := hl
      kept := fun _ => hl
      made := nofun
      others := fun _ _ => ⟨rfl, rfl⟩
      hits := rfl
      misses := rfl }
  | none =>
    have hgen := fun m' => generation_upsert c m m' (c.generation m + 1)
    exact {
      graph := by simp [hgen]
      reused := by
        refine ⟨nofun, fun h => ?_⟩
        obtain ⟨e, he, hd⟩ := Option.map_eq_some_iff.1 h
        exact absurd hd (of_decide_eq_false (by simpa using Option.filter_eq_none_iff.1 hkept e he))
      generation := by simp [hgen]
      entry := by simp [Group.lookup_upsert]
      kept := nofun
      made := fun _ => rfl
      others := fun m' hm => by simp [hgen, Group.lookup_upsert, hm]
      hits := rfl
      misses := rfl }

/-! ## Histories -/

/-- Some calls: what was answered, the latest first, and the cache after them. -/
structure Calls where
  answers : List (Declaration × Answer)
  cache : GraphCache

namespace Calls

/-- One call more. A call that fails answers nothing. -/
def call (r : Calls) (d : Declaration) : Calls :=
  match r.cache.get d with
  | .ok (a, c) => ⟨(d, a) :: r.answers, c⟩
  | .error _ => r

/-- The calls for these declarations, from an empty cache. -/
def run (ds : List Declaration) : Calls := ds.foldl call ⟨[], .empty⟩

/-- The latest answer for a module. -/
def latest (r : Calls) (m : String) : Option Answer := (r.answers.find? (·.1.moduleId = m)).map (·.2)

theorem run_append (ds : List Declaration) (d : Declaration) : run (ds ++ [d]) = (run ds).call d := by
  simp [run]

/-- A call fails and leaves all as it is, or its answer is the latest. -/
theorem call_cases (r : Calls) (d : Declaration) :
    (∃ e, Graph.compile d 1 = .error e ∧ r.cache.get d = .error e ∧ r.call d = r) ∨
    ∃ g a c, Graph.compile d 1 = .ok g ∧ r.cache.get d = .ok (a, c) ∧ r.call d = ⟨(d, a) :: r.answers, c⟩ ∧
      Replied r.cache d.moduleId g a c := by
  have hget := get_eq r.cache d
  cases hd : Graph.compile d 1 with
  | error e =>
    rw [hd] at hget
    exact .inl ⟨e, rfl, hget, by rw [call, hget]; rfl⟩
  | ok g =>
    rw [hd] at hget
    refine .inr ⟨g, _, _, rfl, hget, ?_, reply_replied r.cache d.moduleId g⟩
    rw [call, hget]
    rfl

theorem latest_cons (d : Declaration) (a : Answer) (answers : List (Declaration × Answer)) (c c' : GraphCache)
    (m : String) : latest ⟨(d, a) :: answers, c⟩ m = if m = d.moduleId then some a else latest ⟨answers, c'⟩ m := by
  unfold latest
  by_cases h : m = d.moduleId
  · simp [h]
  · simp [h, Ne.symm h]

/-- The cache holds what the latest answers were, and generations only grow. -/
structure Kept (r : Calls) : Prop where
  entry : ∀ m, r.cache.entries.lookup m =
    (r.latest m).map fun a => (a.compiled.graph.digest, a.compiled.wiring)
  generation : ∀ m, r.cache.generation m = ((r.latest m).map (·.compiled.graph.generation)).getD 0
  compiled : ∀ p ∈ r.answers, Graph.compile p.1 p.2.compiled.graph.generation = .ok p.2.compiled.graph
  le_generation : ∀ p ∈ r.answers, p.2.compiled.graph.generation ≤ r.cache.generation p.1.moduleId
  digest : ∀ p ∈ r.answers, ∀ q ∈ r.answers, p.1.moduleId = q.1.moduleId →
    p.2.compiled.graph.generation = q.2.compiled.graph.generation →
    p.2.compiled.graph.digest = q.2.compiled.graph.digest

theorem kept_nil : Kept ⟨[], .empty⟩ where
  entry := fun _ => rfl
  generation := fun _ => rfl
  compiled := fun _ hp => absurd hp List.not_mem_nil
  le_generation := fun _ hp => absurd hp List.not_mem_nil
  digest := fun _ hp => absurd hp List.not_mem_nil

theorem mem_of_latest {r : Calls} {m : String} {a : Answer} (h : r.latest m = some a) :
    ∃ d, (d, a) ∈ r.answers ∧ d.moduleId = m := by
  obtain ⟨⟨d, a'⟩, hfind, rfl⟩ := Option.map_eq_some_iff.1 h
  exact ⟨d, List.mem_of_find?_eq_some hfind, of_decide_eq_true (List.find?_some hfind :)⟩

variable {r : Calls} {d : Declaration} {g : Graph} {a : Answer} {c : GraphCache}

/-- An earlier answer with the generation of the new one is of its digest. -/
theorem Kept.digest_new (h : r.Kept) (hr : Replied r.cache d.moduleId g a c) {q : Declaration × Answer}
    (hq : q ∈ r.answers) (hm : q.1.moduleId = d.moduleId)
    (he : q.2.compiled.graph.generation = c.generation d.moduleId) : q.2.compiled.graph.digest = g.digest := by
  have hle := hm ▸ h.le_generation q hq
  have hgen := hr.generation
  cases hre : a.reused with
  | false =>
    rw [hre, if_neg Bool.false_ne_true] at hgen
    omega
  | true =>
    rw [hre, if_pos rfl] at hgen
    obtain ⟨b, hb, hbd⟩ := Option.map_eq_some_iff.1 ((h.entry d.moduleId).symm.trans (hr.kept hre))
    obtain ⟨d', hmem, hm'⟩ := mem_of_latest hb
    have hbgen : r.cache.generation d.moduleId = b.compiled.graph.generation := by rw [h.generation, hb]; rfl
    have hqb : q.2.compiled.graph.generation = b.compiled.graph.generation := by omega
    rw [h.digest q hq (d', b) hmem (hm.trans hm'.symm) hqb]
    exact congrArg Prod.fst hbd

theorem Kept.answered (h : r.Kept) (hg : Graph.compile d 1 = .ok g) (hr : Replied r.cache d.moduleId g a c) :
    Kept ⟨(d, a) :: r.answers, c⟩ := by
  have hgen : a.compiled.graph.generation = c.generation d.moduleId := congrArg Graph.generation hr.graph
  have hdigest : a.compiled.graph.digest = g.digest := by
    rw [hr.graph]
    rfl
  have hlatest := fun m => latest_cons d a r.answers c r.cache m
  constructor
  case entry =>
    intro m
    rw [hlatest]
    by_cases hm : m = d.moduleId
    · simp [hm, hr.entry, hdigest]
    · simp only [if_neg hm]
      rw [(hr.others m hm).2, h.entry m]
  case generation =>
    intro m
    rw [hlatest]
    by_cases hm : m = d.moduleId
    · simp [hm, hgen]
    · simp only [if_neg hm]
      rw [(hr.others m hm).1, h.generation m]
  case compiled =>
    intro p hp
    rcases List.mem_cons.1 hp with rfl | hp
    · simp only [hgen]
      rw [hr.graph]
      exact Graph.compile_renumbered hg _
    · exact h.compiled p hp
  case le_generation =>
    intro p hp
    rcases List.mem_cons.1 hp with rfl | hp
    · exact Nat.le_of_eq hgen
    · have hle := h.le_generation p hp
      by_cases hm : p.1.moduleId = d.moduleId
      · have := hr.generation
        simp only [hm] at hle ⊢
        split at this <;> omega
      · exact (hr.others _ hm).1 ▸ hle
  case digest =>
    intro p hp q hq hm he
    rcases List.mem_cons.1 hp with rfl | hp <;> rcases List.mem_cons.1 hq with rfl | hq
    · rfl
    · exact hdigest.trans (h.digest_new hr hq hm.symm (he.symm.trans hgen)).symm
    · exact (h.digest_new hr hp hm (he.trans hgen)).trans hdigest.symm
    · exact h.digest p hp q hq hm he

theorem run_kept (ds : List Declaration) : (run ds).Kept := by
  induction ds using List.reverseRecOn with
  | nil => exact kept_nil
  | append_singleton ds d ih =>
    rw [run_append]
    rcases call_cases (run ds) d with ⟨_, -, -, hc⟩ | ⟨g, a, c, hg, -, hc, hr⟩
    · rwa [hc]
    · rw [hc]
      exact ih.answered hg hr

/-! ## Matching pairs -/

/-- Declarations of one module among these whose graphs have one digest have one graph. -/
def ToldApart (ds : List Declaration) : Prop :=
  ∀ d ∈ ds, ∀ d' ∈ ds, d.moduleId = d'.moduleId → ∀ g g', Graph.compile d 1 = .ok g → Graph.compile d' 1 = .ok g' →
    g.digest = g'.digest → g.content = g'.content

theorem ToldApart.mono {ds ds' : List Declaration} (h : ToldApart ds') (hs : ds ⊆ ds') : ToldApart ds :=
  fun d hd d' hd' => h d (hs hd) d' (hs hd')

theorem mem_of_answers (ds : List Declaration) : ∀ p ∈ (run ds).answers, p.1 ∈ ds := by
  induction ds using List.reverseRecOn with
  | nil => exact fun _ hp => absurd hp List.not_mem_nil
  | append_singleton ds d ih =>
    intro p hp
    rw [run_append] at hp
    rcases call_cases (run ds) d with ⟨_, -, -, hc⟩ | ⟨g, a, c, -, -, hc, -⟩
    · rw [hc] at hp
      exact List.mem_append_left _ (ih p hp)
    · rw [hc] at hp
      rcases List.mem_cons.1 hp with rfl | hp
      · exact List.mem_append_right _ (List.mem_singleton.2 rfl)
      · exact List.mem_append_left _ (ih p hp)

theorem content_eq_of_digest {ds : List Declaration} (h : ToldApart ds) {p q : Declaration × Answer}
    (hp : p ∈ (run ds).answers) (hq : q ∈ (run ds).answers) (hm : p.1.moduleId = q.1.moduleId)
    (hd : p.2.compiled.graph.digest = q.2.compiled.graph.digest) :
    p.2.compiled.graph.content = q.2.compiled.graph.content := by
  have hcp := Graph.compile_renumbered ((run_kept ds).compiled p hp) 1
  have hcq := Graph.compile_renumbered ((run_kept ds).compiled q hq) 1
  have hcontent := h p.1 (mem_of_answers ds p hp) q.1 (mem_of_answers ds q hq) hm _ _ hcp hcq
  exact hcontent hd

/-- Answers of one module with one generation are of one graph. -/
theorem content_eq_of_generation {ds : List Declaration} (h : ToldApart ds) {p q : Declaration × Answer}
    (hp : p ∈ (run ds).answers) (hq : q ∈ (run ds).answers) (hm : p.1.moduleId = q.1.moduleId)
    (hn : p.2.compiled.graph.generation = q.2.compiled.graph.generation) :
    p.2.compiled.graph.content = q.2.compiled.graph.content :=
  content_eq_of_digest h hp hq hm ((run_kept ds).digest p hp q hq hm hn)

/-- Every answer is a pair of its own declaration. -/
theorem answers_of {ds : List Declaration} (h : ToldApart ds) : ∀ p ∈ (run ds).answers, p.2.compiled.Of p.1 := by
  induction ds using List.reverseRecOn with
  | nil => exact fun _ hp => absurd hp List.not_mem_nil
  | append_singleton ds d ih =>
    have hpast := ih (h.mono (List.subset_append_left ds [d]))
    have hkept := run_kept (ds ++ [d])
    have htold := @content_eq_of_generation (ds ++ [d]) h
    rw [run_append] at hkept htold ⊢
    rcases call_cases (run ds) d with ⟨_, -, -, hc⟩ | ⟨g, a, c, hg, -, hc, hr⟩
    · rwa [hc]
    rw [hc] at hkept htold ⊢
    intro p hp
    rcases List.mem_cons.1 hp with rfl | hp
    · refine ⟨⟨_, hkept.compiled _ List.mem_cons_self⟩, ?_⟩
      cases hre : a.reused with
      | false => exact hr.made hre
      | true =>
        -- the wiring is that of the latest answer, whose generation the new one has
        obtain ⟨b, hb, hbw⟩ := Option.map_eq_some_iff.1 (((run_kept ds).entry d.moduleId).symm.trans (hr.kept hre))
        obtain ⟨d', hmem, hm⟩ := mem_of_latest hb
        have hgen : a.compiled.graph.generation = b.compiled.graph.generation := by
          have hb' := (run_kept ds).generation d.moduleId
          rw [hb] at hb'
          rw [show a.compiled.graph.generation = c.generation d.moduleId from congrArg Graph.generation hr.graph,
            hr.generation, hre, if_pos rfl, hb']
          rfl
        have hwb : b.compiled.wiring = a.compiled.wiring := congrArg Prod.snd hbw
        rw [← hwb, (hpast _ hmem).wiring]
        refine (Graph.ofGraph_eq_of_content (hkept.compiled (d, a) List.mem_cons_self)
          (hkept.compiled (d', b) (List.mem_cons_of_mem _ hmem)) ?_ hgen).symm
        exact htold List.mem_cons_self (List.mem_cons_of_mem _ hmem) hm.symm hgen
    · exact hpast p hp

/-! ## Modules apart -/

/-- Two caches hold the same of a module. -/
def Alike (m : String) (c c' : GraphCache) : Prop :=
  c.generation m = c'.generation m ∧ c.entries.lookup m = c'.entries.lookup m

theorem reply_alike {m : String} {c c' : GraphCache} (h : Alike m c c') (g : Graph) :
    (c.reply m g).1 = (c'.reply m g).1 ∧ Alike m (c.reply m g).2 (c'.reply m g).2 := by
  have hr := reply_replied c m g
  have hr' := reply_replied c' m g
  have ha : (c.reply m g).1 = (c'.reply m g).1 := by
    simp only [reply, h.1, h.2]
    split <;> rfl
  rw [ha] at hr
  refine ⟨ha, ?_, hr.entry.trans hr'.entry.symm⟩
  rw [hr.generation, hr'.generation, h.1]

/-- What is held of a module, its own calls have brought about. -/
theorem run_filter_alike (ds : List Declaration) (m : String) :
    Alike m (run ds).cache (run (ds.filter fun d => d.moduleId = m)).cache := by
  induction ds using List.reverseRecOn with
  | nil => exact ⟨rfl, rfl⟩
  | append_singleton ds d ih =>
    rw [List.filter_append, run_append]
    by_cases hm : d.moduleId = m
    · subst hm
      rw [List.filter_cons_of_pos (by simp), List.filter_nil, run_append]
      simp only [call, get_eq]
      cases Graph.compile d 1 with
      | error e => exact ih
      | ok g => exact (reply_alike ih g).2
    · rw [List.filter_cons_of_neg (by simpa using hm), List.filter_nil, List.append_nil]
      rcases call_cases (run ds) d with ⟨_, -, -, hc⟩ | ⟨g, a, c, -, -, hc, hr⟩
      · rwa [hc]
      · obtain ⟨hgen, hentry⟩ := hr.others m (Ne.symm hm)
        rw [hc]
        exact ⟨hgen.trans ih.1, hentry.trans ih.2⟩

/-! ## What is answered -/

/-- An answer to a call for `d` after the calls of `r`, and what it did to the cache. -/
structure Matches (r : Calls) (d : Declaration) (a : Answer) (c' : GraphCache) : Prop where
  graph : Graph.compile d (c'.generation d.moduleId) = .ok a.compiled.graph
  wiring : a.compiled.wiring = .ofGraph a.compiled.graph
  bodies : ∀ group ∈ d.groups, ∀ raw k, (raw, .computed k) ∈ group.entries → a.compiled.graph.Carries raw k
  reused : a.reused = true ↔
    (r.latest d.moduleId).map (·.compiled.graph.digest) = some a.compiled.graph.digest
  generation : c'.generation d.moduleId =
    if a.reused then r.cache.generation d.moduleId else r.cache.generation d.moduleId + 1
  others : ∀ m, m ≠ d.moduleId →
    c'.generation m = r.cache.generation m ∧ c'.entries.lookup m = r.cache.entries.lookup m
  hits : c'.hits = r.cache.hits + a.reused.toNat
  misses : c'.misses = r.cache.misses + (!a.reused).toNat

/-- Whatever calls came before: an answer is a graph of the declaration and the wiring of
that graph; the generation moves by one exactly when the digest is not that of the latest
answer for the module; a call that fails leaves everything as it was; and the answer is
the one that there would be if only the calls of its own module had come before. -/
theorem run_answers (ds : List Declaration) (d : Declaration) (h : ToldApart (ds ++ [d])) :
    (∀ a c', (run ds).cache.get d = .ok (a, c') → Matches (run ds) d a c') ∧
    (∀ e, (run ds).cache.get d = .error e → run (ds ++ [d]) = run ds) ∧
    ((run ds).cache.get d).map Prod.fst =
      ((run (ds.filter fun b => b.moduleId = d.moduleId)).cache.get d).map Prod.fst := by
  refine ⟨fun a c' hget => ?_, fun e hget => ?_, ?_⟩
  · have hof := answers_of h
    rw [run_append] at hof
    rcases call_cases (run ds) d with ⟨e, -, he, -⟩ | ⟨g, a, c, hg, hok, hc, hr⟩
    · rw [he] at hget
      cases hget
    rw [hok] at hget
    cases hget
    rw [hc] at hof
    have hgraph : Graph.compile d (c'.generation d.moduleId) = .ok a.compiled.graph :=
      hr.graph ▸ Graph.compile_renumbered hg _
    have hdigest : a.compiled.graph.digest = g.digest := by
      rw [hr.graph]
      rfl
    constructor
    case graph => exact hgraph
    case wiring => exact (hof (d, a) List.mem_cons_self).wiring
    case bodies => exact Graph.compile_carries hgraph
    case reused =>
      rw [hr.reused, (run_kept ds).entry, Option.map_map, hdigest]
      rfl
    case generation => exact hr.generation
    case others => exact hr.others
    case hits => exact hr.hits
    case misses => exact hr.misses
  · rw [run_append, call, hget]
  · rw [get_eq, get_eq]
    cases Graph.compile d 1 with
    | error e => rfl
    | ok g => exact congrArg Except.ok (reply_alike (run_filter_alike ds d.moduleId) g).1

end Calls

end GraphCache

namespace Relay

open GraphCache

/-- A relay in other groups whose `a` is seven whatever `x` is. -/
def seven : Declaration :=
  ((Declaration.named "relay").group
    ((Group.named "sevens").field "a"
      (.computed ⟨["x"], .ofRun none fun _ => ⟨.ok (.int 7), []⟩, some Value.same, .immediate⟩))).group
    ((Group.named "links").field "b" (.link "a" .deferred))

/-- A field that depends on nothing. -/
def unfounded : Declaration :=
  (Declaration.named "relay").group ((Group.named "relay").field "a" (.computed ⟨[], derive, none, .immediate⟩))

def stranger : Declaration :=
  (Declaration.named "stranger").group ((Group.named "relay").field "b" (.link "a" .immediate))

def asked : List Declaration := [declaration, unfounded, stranger]

theorem content_of_asked {d : Declaration} (h : d ∈ asked ++ [seven]) (hm : d.moduleId = "relay") {g : Graph}
    (hg : Graph.compile d 1 = .ok g) : g.content = graph.content := by
  have hfour : d = declaration ∨ d = unfounded ∨ d = stranger ∨ d = seven := by simpa [asked] using h
  rcases hfour with rfl | rfl | rfl | rfl
  · have hc : (Graph.compile declaration 1).map Graph.content = .ok graph.content := by
      unfold graph
      cbv
    rw [hg] at hc
    exact Except.ok.inj hc
  · have hc : Graph.compile unfounded 1 = .error (.missingDeps "a") := by cbv
    rw [hg] at hc
    cases hc
  · exact absurd hm (by decide)
  · have hc : (Graph.compile seven 1).map Graph.content = .ok graph.content := by
      unfold graph
      cbv
    rw [hg] at hc
    exact Except.ok.inj hc

theorem asked_toldApart : Calls.ToldApart (asked ++ [seven]) := by
  intro d hd d' hd' hm g g' hg hg' _
  by_cases hr : d.moduleId = "relay"
  · exact (content_of_asked hd hr hg).trans (content_of_asked hd' (hm ▸ hr) hg').symm
  · have hs : ∀ b ∈ asked ++ [seven], b.moduleId ≠ "relay" → b = stranger := by
      intro b hb hne
      have hfour : b = declaration ∨ b = unfounded ∨ b = stranger ∨ b = seven := by simpa [asked] using hb
      rcases hfour with rfl | rfl | rfl | rfl
      · exact absurd rfl hne
      · exact absurd rfl hne
      · rfl
      · exact absurd rfl hne
    rw [hs d hd hr] at hg
    rw [hs d' hd' (hm ▸ hr)] at hg'
    rw [hg] at hg'
    rw [Except.ok.inj hg']

/-- After a failed call and one of another module, other functions over the same fields
get the first wiring and stay in the first generation. -/
theorem seven_answered : ∃ a c', (Calls.run asked).cache.get seven = .ok (a, c') ∧ a.reused = true ∧
    c'.generation "relay" = 1 ∧ Calls.Matches (Calls.run asked) seven a c' := by
  have hreused : ((Calls.run asked).cache.get seven).toOption.map (fun r => (r.1.reused, r.2.generation "relay")) =
      some (true, 1) := by cbv
  cases hget : (Calls.run asked).cache.get seven with
  | error e =>
    rw [hget] at hreused
    cases hreused
  | ok r =>
    obtain ⟨a, c'⟩ := r
    rw [hget] at hreused
    obtain ⟨hr, hgen⟩ := Prod.mk.inj (Option.some.inj hreused)
    exact ⟨a, c', rfl, hr, hgen, (Calls.run_answers asked seven asked_toldApart).1 a c' hget⟩

end Relay

end Settle
