/-
  Settle.Proofs.Arrangement — what the order of declaration does to a graph (see
  `Settle.Graph.Compile`).

  Two declarations are arrangements of each other when they have the same entries at the
  same paths (`Declaration.Rearranges`), whatever groups these are in and however they
  are ordered. Steps come from the entries in that order, but no two of them write the
  same path, so sorting forgets where they came from (`sorted_ungrouped`): table, steps,
  bodies, orders, levels and triggers are the same, the groups that steps name apart
  (`Graph.Alike`).

  The paths of the other entries stay in the order of declaration (`compile_reserved`)
  and go into the digest in it. Where they come in one order, the digests agree and a
  cache answers the second declaration with what it kept for the first
  (`rearranged_alike`). Where they do not, the digests differ though nothing that passes
  go by does (`Shelf.swapped_misses`).
-/

import Settle.Plan.Flat
import Settle.Proofs.Declared
import Settle.Proofs.GraphCache

namespace Settle

/-! ## Entries -/

/-- Some group of the declaration has the entry at the path. -/
def Declaration.Holds (d : Declaration) (p : Path) (e : Entry) : Prop :=
  ∃ g ∈ d.groups, ∃ raw, (raw, e) ∈ g.entries ∧ Path.parse raw = .ok p

/-- Declarations of one module with the same entries at the same paths. -/
structure Declaration.Rearranges (d d' : Declaration) : Prop where
  moduleId : d.moduleId = d'.moduleId
  entries : ∀ p e, d.Holds p e ↔ d'.Holds p e

/-- The same entries at the same texts, in any order and any groups. -/
theorem Declaration.rearranges_of_perm {d d' : Declaration} (hm : d.moduleId = d'.moduleId)
    (h : (d.groups.flatMap (·.entries)).Perm (d'.groups.flatMap (·.entries))) : d.Rearranges d' := by
  have hholds : ∀ (d : Declaration) p e, d.Holds p e ↔
      ∃ raw, (raw, e) ∈ d.groups.flatMap (·.entries) ∧ Path.parse raw = .ok p := by
    intro d p e
    simp only [List.mem_flatMap]
    constructor
    · rintro ⟨g, hg, raw, he, hp⟩
      exact ⟨raw, ⟨g, hg, he⟩, hp⟩
    · rintro ⟨raw, ⟨g, hg, he⟩, hp⟩
      exact ⟨g, hg, raw, he, hp⟩
  refine ⟨hm, fun p e => ?_⟩
  rw [hholds, hholds]
  exact exists_congr fun raw => and_congr_left fun _ => h.mem_iff

def Draft.ungrouped (x : Draft) : Draft := { x with group := "" }

/-- The draft of an entry, its group apart; none where it is no step or a text of it is no path. -/
def Entry.draft? (out : Path) : Entry → Option Draft
  | .computed c => (c.deps.mapM Path.parse).toOption.map fun deps =>
      ⟨out, deps, none, .computed c.derive c.equality, c.scheduling, ""⟩
  | .link text scheduling => (Path.parse text).toOption.map fun source =>
      ⟨out, [source], some source, .link, scheduling, ""⟩
  | _ => none

/-- The path of an entry that is no step. -/
def Entry.reserved? (out : Path) : Entry → Option Path
  | .computed _ => none
  | .link _ _ => none
  | _ => some out

/-- What entries and their paths give, in the order of declaration. -/
def Declaration.gather {γ : Type} (d : Declaration) (k : Path → Entry → Option γ) : List γ :=
  d.groups.flatMap fun g => g.entries.filterMap fun e => (Path.parse e.1).toOption.bind fun p => k p e.2

/-- The paths of the entries that are no steps, in the order of declaration. -/
def Declaration.reserved (d : Declaration) : List Path := d.gather Entry.reserved?

theorem Declaration.mem_gather {γ : Type} {d : Declaration} {k : Path → Entry → Option γ} {x : γ} :
    x ∈ d.gather k ↔ ∃ p e, d.Holds p e ∧ k p e = some x := by
  constructor
  · intro h
    obtain ⟨g, hg, h⟩ := List.mem_flatMap.1 h
    obtain ⟨⟨raw, e⟩, he, h⟩ := List.mem_filterMap.1 h
    obtain ⟨p, hp, hk⟩ := Option.bind_eq_some_iff.1 h
    refine ⟨p, e, ⟨g, hg, raw, he, ?_⟩, hk⟩
    cases hparse : Path.parse raw with
    | error cause => simp [hparse, Except.toOption] at hp
    | ok q => simpa [hparse, Except.toOption] using hp
  · rintro ⟨p, e, ⟨g, hg, raw, he, hp⟩, hk⟩
    refine List.mem_flatMap.2 ⟨g, hg, List.mem_filterMap.2 ⟨(raw, e), he, ?_⟩⟩
    simp only [hp]
    exact hk

/-- Arrangements give the same, in some order. -/
theorem Declaration.Rearranges.mem_gather {γ : Type} {d d' : Declaration} (h : d.Rearranges d')
    {k : Path → Entry → Option γ} {x : γ} : x ∈ d.gather k ↔ x ∈ d'.gather k := by
  rw [Declaration.mem_gather, Declaration.mem_gather]
  exact exists_congr fun p => exists_congr fun e => and_congr_left fun _ => h.entries p e

namespace Outline

variable {o o' : Outline} {d d' : Declaration}

theorem addEntry_ungrouped {group raw : String} {e : Entry} (h : o.addEntry group raw e = .ok o') :
    o'.drafts.map Draft.ungrouped = o.drafts.map Draft.ungrouped ++
      ((Path.parse raw).toOption.bind fun p => e.draft? p).toList := by
  cases added h with
  | computed hout _ _ _ hdeps => simp [Draft.ungrouped, Entry.draft?, hout, hdeps, Except.toOption]
  | link hout _ _ hsource _ => simp [Draft.ungrouped, Entry.draft?, hout, hsource, Except.toOption]
  | reserved hcomputed hlink hout _ =>
    have hnone : ∀ p, e.draft? p = none := by
      intro p
      rcases e.no_step hcomputed hlink with ⟨deps, rfl⟩ | rfl | rfl <;> rfl
    simp [hnone, hout, Except.toOption]

theorem addEntry_reserved {group raw : String} {e : Entry} (h : o.addEntry group raw e = .ok o') :
    o'.reserved = o.reserved ++ ((Path.parse raw).toOption.bind fun p => e.reserved? p).toList := by
  cases added h with
  | computed hout _ _ _ _ => simp [Entry.reserved?, hout, Except.toOption]
  | link hout _ _ _ _ => simp [Entry.reserved?, hout, Except.toOption]
  | reserved hcomputed hlink hout _ =>
    have hsome : ∀ p, e.reserved? p = some p := by
      intro p
      rcases e.no_step hcomputed hlink with ⟨deps, rfl⟩ | rfl | rfl <;> rfl
    simp [hsome, hout, Except.toOption]

theorem ofDeclaration_ungrouped (h : ofDeclaration d = .ok o) :
    o.drafts.map Draft.ungrouped = d.gather fun p e => e.draft? p :=
  ofDeclaration_appends (m := fun o => o.drafts.map Draft.ungrouped) addEntry_ungrouped h

theorem ofDeclaration_reserved (h : ofDeclaration d = .ok o) : o.reserved = d.reserved :=
  ofDeclaration_appends addEntry_reserved h

theorem outs_ungrouped (l : List Draft) : (l.map Draft.ungrouped).map (·.out) = l.map (·.out) := by
  rw [List.map_map]
  rfl

/-- Sorted by the paths they write, the drafts of arrangements come in one order. -/
theorem sorted_ungrouped (h : d.Rearranges d') (ho : ofDeclaration d = .ok o) (ho' : ofDeclaration d' = .ok o') :
    o.sorted.map Draft.ungrouped = o'.sorted.map Draft.ungrouped := by
  have hnodup : ∀ {d : Declaration} {o : Outline}, ofDeclaration d = .ok o → (o.drafts.map Draft.ungrouped).Nodup := by
    intro d o ho
    exact .of_map (·.out) (outs_ungrouped o.drafts ▸ (ofDeclaration_checked ho).outs)
  have hsorted : ∀ o : Outline, (o.sorted.map Draft.ungrouped).Pairwise fun x y => x.out.le y.out = true :=
    fun o => List.pairwise_map.2 o.sorted_le
  have hperm : ∀ o : Outline, (o.sorted.map Draft.ungrouped).Perm (o.drafts.map Draft.ungrouped) := fun o =>
    (List.mergeSort_perm o.drafts _).map _
  have hdrafts : (o.drafts.map Draft.ungrouped).Perm (o'.drafts.map Draft.ungrouped) := by
    refine (List.perm_ext_iff_of_nodup (hnodup ho) (hnodup ho')).2 fun x => ?_
    rw [ofDeclaration_ungrouped ho, ofDeclaration_ungrouped ho']
    exact h.mem_gather
  have hboth : (o.sorted.map Draft.ungrouped).Perm (o'.sorted.map Draft.ungrouped) :=
    (hperm o).trans (hdrafts.trans (hperm o').symm)
  refine hboth.eq_of_pairwise (fun x y hx hy hxy hyx => ?_) (hsorted o) (hsorted o')
  -- two drafts at one place in the order write the same path, so they are one
  have hinj : ((o.sorted.map Draft.ungrouped).map (·.out)).Nodup := by
    rw [outs_ungrouped]
    exact (ofDeclaration_checked ho).nodup_sorted
  exact List.inj_on_of_nodup_map hinj hx (hboth.mem_iff.2 hy) (Path.le_antisymm hxy hyx)

end Outline

/-! ## Graphs -/

def Step.ungrouped (s : Step) : Step := { s with group := "" }

namespace Graph

variable {d d' : Declaration} {n n' : Nat} {g g' : Graph}

theorem stepsFrom_ungrouped (table : PathTable) (i : StepId) (l : List Draft) :
    (stepsFrom table i l).map Step.ungrouped = stepsFrom table i (l.map Draft.ungrouped) := by
  induction l generalizing i with
  | nil => rfl
  | cons x l ih =>
    rw [stepsFrom, List.map_cons, List.map_cons, stepsFrom, ih]
    rfl

/-- Graphs that are the same but for the groups that steps name and the order of the
reserved paths. -/
structure Alike (g g' : Graph) : Prop where
  table : g.table = g'.table
  steps : g.steps.map Step.ungrouped = g'.steps.map Step.ungrouped
  bodies : g.bodies = g'.bodies
  orders : ∀ scope, g.orders.get scope = g'.orders.get scope
  levels : g.levels = g'.levels
  triggers : Triggers.ofGraph g = Triggers.ofGraph g'
  reserved : ∀ p, p ∈ g.reserved ↔ p ∈ g'.reserved

theorem table_ungrouped (o : Outline) :
    o.table = .ofPaths ((o.sorted.map Draft.ungrouped).flatMap fun x => x.out :: x.deps) := by
  rw [Outline.table, List.flatMap_map]
  rfl

theorem bodies_ungrouped (l : List Draft) : l.map (·.body) = (l.map Draft.ungrouped).map (·.body) := by
  rw [List.map_map]
  rfl

theorem orderOf_ungrouped (table : PathTable) (steps : List Step) (scope : Scope) :
    orderOf table (steps.map Step.ungrouped) scope = orderOf table steps scope := by
  rw [← orderOf_bare, ← orderOf_bare table steps, List.map_map]
  rfl

theorem ofSteps_ungrouped (pathCount : Nat) (chains : List (List PathId)) (steps : List Step) :
    Triggers.ofSteps pathCount chains (steps.map Step.ungrouped) = Triggers.ofSteps pathCount chains steps := by
  rw [Triggers.ofSteps, List.foldl_map]
  rfl

theorem compile_reserved (h : compile d n = .ok g) : g.reserved = d.reserved := by
  obtain ⟨o, ho, hreserved, -⟩ := compile_outline h
  rw [hreserved, Outline.ofDeclaration_reserved ho]

/-- Arrangements compile to one graph. -/
theorem alike_of_rearranges (h : d.Rearranges d') (hg : compile d n = .ok g) (hg' : compile d' n' = .ok g') :
    g.Alike g' := by
  obtain ⟨o, ho, htable, hsteps, hbodies, horders, hlevels, -⟩ := compile_checks hg
  obtain ⟨o', ho', htable', hsteps', hbodies', horders', hlevels', -⟩ := compile_checks hg'
  have hsorted := Outline.sorted_ungrouped h ho ho'
  have ht : g.table = g'.table := by
    rw [htable, htable', table_ungrouped, table_ungrouped, hsorted]
  have hs : g.steps.map Step.ungrouped = g'.steps.map Step.ungrouped := by
    rw [hsteps, hsteps', stepsFrom_ungrouped, stepsFrom_ungrouped, hsorted, ← htable, ← htable', ht]
  have horder : ∀ scope, orderOf g.table g.steps scope = orderOf g'.table g'.steps scope := by
    intro scope
    rw [← orderOf_ungrouped, ← orderOf_ungrouped g'.table, hs, ht]
  constructor
  case table => exact ht
  case steps => exact hs
  case bodies => rw [hbodies, hbodies', bodies_ungrouped, bodies_ungrouped o'.sorted, hsorted]
  case orders =>
    intro scope
    rw [horders, horders', horder]
  case levels => rw [hlevels, hlevels', horder]
  case triggers =>
    rw [Triggers.ofGraph, Triggers.ofGraph, ← ofSteps_ungrouped, ← ofSteps_ungrouped g'.table.size, hs, ht]
  case reserved =>
    intro p
    rw [compile_reserved hg, compile_reserved hg']
    exact h.mem_gather

theorem Alike.digest_eq (h : g.Alike g') (hr : g.reserved = g'.reserved) : g.digest = g'.digest := by
  have hsteps : ∀ l : List Step, l.flatMap stepBytes = (l.map Step.ungrouped).flatMap stepBytes := by
    intro l
    rw [List.flatMap_map]
    rfl
  rw [digest, digest, digestBytes, digestBytes, hsteps, hsteps g'.steps, h.table, h.steps, hr]

end Graph

/-! ## The cache -/

/-- Asked for one declaration and then for the other, every cache answers the second time
with what it kept the first time, in the same generation. -/
def Declaration.HitsAfter (d' d : Declaration) : Prop :=
  ∀ c : GraphCache, ∃ a c₁ a' c₂, c.get d = .ok (a, c₁) ∧ c₁.get d' = .ok (a', c₂) ∧ a'.reused = true ∧
    a'.compiled.wiring = a.compiled.wiring ∧ c₂.generation d'.moduleId = c₁.generation d.moduleId

/-- It is the digest that decides. -/
theorem GraphCache.hitsAfter_iff {d d' : Declaration} {g g' : Graph} (hg : Graph.compile d 1 = .ok g)
    (hg' : Graph.compile d' 1 = .ok g') (hm : d.moduleId = d'.moduleId) : d'.HitsAfter d ↔ g.digest = g'.digest := by
  have hget : ∀ {d : Declaration} {g : Graph} (c : GraphCache), Graph.compile d 1 = .ok g →
      c.get d = .ok ((c.reply d.moduleId g).1, (c.reply d.moduleId g).2) := by
    intro d g c hg
    rw [get_eq, hg]
    rfl
  have hreused : ∀ c : GraphCache, ((c.reply d.moduleId g).2.reply d'.moduleId g').1.reused = true ↔
      g.digest = g'.digest := by
    intro c
    rw [(reply_replied _ d'.moduleId g').reused, ← hm, (reply_replied c d.moduleId g).entry, Option.map_some,
      Option.some.injEq]
  constructor
  · intro h
    obtain ⟨a, c₁, a', c₂, hfirst, hagain, hhit, -⟩ := h .empty
    rw [hget .empty hg] at hfirst
    cases hfirst
    rw [hget _ hg'] at hagain
    cases hagain
    exact (hreused .empty).1 hhit
  · intro hdigest c
    have hhit := (hreused c).2 hdigest
    have hagain := reply_replied (c.reply d.moduleId g).2 d'.moduleId g'
    refine ⟨_, _, _, _, hget c hg, hget _ hg', hhit, ?_, ?_⟩
    · have hkept := hagain.kept hhit
      rw [← hm, (reply_replied c d.moduleId g).entry] at hkept
      exact hm ▸ (Prod.mk.inj (Option.some.inj hkept)).2.symm
    · rw [hagain.generation, if_pos hhit, hm]

/-- Arrangements of one declaration compile to graphs that are the same but for the groups
that steps name and the order of the reserved paths; where the entries that are no steps
come in one order, the digests agree, and asking for the second after the first is a hit. -/
theorem Graph.rearranged_alike {d d' : Declaration} {n n' : Nat} {g g' : Graph} (h : d.Rearranges d')
    (hg : compile d n = .ok g) (hg' : compile d' n' = .ok g') :
    g.Alike g' ∧ (d.reserved = d'.reserved → g.digest = g'.digest ∧ d'.HitsAfter d) := by
  have halike := alike_of_rearranges h hg hg'
  refine ⟨halike, fun hr => ?_⟩
  have hdigest : g.digest = g'.digest :=
    halike.digest_eq (by rw [compile_reserved hg, compile_reserved hg', hr])
  exact ⟨hdigest, (GraphCache.hitsAfter_iff (compile_renumbered hg 1) (compile_renumbered hg' 1) h.moduleId).2 hdigest⟩

/-! ## Reserved paths in another order -/

namespace Shelf

def derive : Derive := .ofRun none fun _ => ⟨.ok .null, []⟩

def b : Entry := .computed ⟨["a"], derive, none, .immediate⟩

/-- A step and two places. -/
def declaration : Declaration := (Declaration.named "shelf").group ⟨"shelf", [("b", b), ("x", .node), ("y", .node)]⟩

/-- The step after the places and in a group of its own. -/
def regrouped : Declaration :=
  ((Declaration.named "shelf").group ⟨"places", [("x", .node), ("y", .node)]⟩).group ⟨"steps", [("b", b)]⟩

/-- The places the other way round. -/
def swapped : Declaration := (Declaration.named "shelf").group ⟨"shelf", [("b", b), ("y", .node), ("x", .node)]⟩

def x : Path := Relay.x

def y : Path := ⟨["y"], by decide⟩

def graph (group : String) (reserved : List Path) : Graph where
  moduleId := "shelf"
  table := ⟨[Relay.a, Relay.b]⟩
  steps := [⟨0, .computed, 1, [0], none, .immediate, "b", group⟩]
  bodies := [.computed derive none]
  orders := ⟨⟨[0], []⟩, ⟨[0], []⟩, ⟨[], []⟩⟩
  levels := [[0]]
  reserved := reserved
  shapeWarnings := []
  generation := 1

theorem compile_eq : Graph.compile declaration 1 = .ok (graph "shelf" [x, y]) := by
  unfold graph
  cbv

theorem compile_regrouped : Graph.compile regrouped 1 = .ok (graph "steps" [x, y]) := by
  unfold graph
  cbv

theorem compile_swapped : Graph.compile swapped 1 = .ok (graph "shelf" [y, x]) := by
  unfold graph
  cbv

theorem regrouped_rearranges : declaration.Rearranges regrouped :=
  Declaration.rearranges_of_perm rfl (@List.perm_append_comm _ [("b", b)] [("x", .node), ("y", .node)])

theorem swapped_rearranges : declaration.Rearranges swapped :=
  Declaration.rearranges_of_perm rfl (.cons _ (.swap _ _ _))

/-- In other groups, but with the places in the same order, the declaration is a hit. -/
theorem regrouped_alike : Graph.compile declaration 1 = .ok (graph "shelf" [x, y]) ∧
    Graph.compile regrouped 1 = .ok (graph "steps" [x, y]) ∧ (graph "shelf" [x, y]).Alike (graph "steps" [x, y]) ∧
    (graph "shelf" [x, y]).digest = (graph "steps" [x, y]).digest ∧ regrouped.HitsAfter declaration := by
  have hreserved : declaration.reserved = regrouped.reserved := by cbv
  obtain ⟨halike, hhits⟩ := Graph.rearranged_alike regrouped_rearranges compile_eq compile_regrouped
  exact ⟨compile_eq, compile_regrouped, halike, hhits hreserved⟩

theorem digest_ne : (graph "shelf" [x, y]).digest ≠ (graph "shelf" [y, x]).digest := by decide +kernel

/-- With the places the other way round, which changes nothing that passes go by, the
declaration has another digest and is no hit. -/
theorem swapped_misses : declaration.Rearranges swapped ∧ Graph.compile declaration 1 = .ok (graph "shelf" [x, y]) ∧
    Graph.compile swapped 1 = .ok (graph "shelf" [y, x]) ∧
    (graph "shelf" [x, y]).digest ≠ (graph "shelf" [y, x]).digest ∧ ¬ swapped.HitsAfter declaration :=
  ⟨swapped_rearranges, compile_eq, compile_swapped, digest_ne,
    fun h => digest_ne ((GraphCache.hitsAfter_iff compile_eq compile_swapped rfl).1 h)⟩

end Shelf

end Settle
