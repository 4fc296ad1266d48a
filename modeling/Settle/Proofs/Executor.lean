/-
  Settle.Proofs.Executor — how passes begin (see `Settle.Executor`).

  The wiring of an executor is that of its graph, and its cache holds what its keys reach
  (`Executor.Sound`): so it is from the first pass on, whatever passes ran
  (`Executor.Reached.sound`). A pass chooses outright, or by a plan that it looks for, and
  only the latter depends on its cache (`Pass.decide_eq`). Whichever way it chooses, it runs
  the steps that some closed set picks out of the order of its scope, and every unsettled
  step that a dirty root moves or carried work names is among them and due (`exists_start`).
-/

import Settle.Proofs.Tracing
import Settle.Proofs.Dirty
import Settle.Proofs.Sweep

namespace Settle

/-! ## Plans that are kept -/

/-- Each plan kept is what its roots reach. -/
def PlanCache.Right (g : Graph) (w : Wiring) (c : PlanCache) : Prop :=
  ∀ k plan, (k, plan) ∈ c.entries → (∀ r ∈ k.roots, r < g.table.size) →
    Plan.IsPlan g w k.scope k.roots [] plan

namespace PlanCache

variable {g : Graph} {w : Wiring} {c : PlanCache}

theorem right_ofGeneration (generation : Nat) : (ofGeneration generation).Right g w := nofun

theorem mem_of_lookup {k : PlanKey} {plan : List StepId} (h : c.entries.lookup k = some plan) :
    (k, plan) ∈ c.entries := by
  obtain ⟨l₁, l₂, hl, -⟩ := List.lookup_eq_some_iff.1 h
  rw [hl]
  exact List.mem_append_right _ List.mem_cons_self

/-- Looking a plan up keeps the entries. -/
theorem mem_get {k : PlanKey} {e : PlanKey × List StepId} (h : e ∈ (c.get k).2.entries) : e ∈ c.entries := by
  unfold get at h
  split at h
  · exact h
  · split at h
    · rename_i plan hplan
      rcases List.mem_append.1 h with h | h
      · exact (List.mem_filter.1 h).1
      · exact List.mem_singleton.1 h ▸ mem_of_lookup hplan
    · exact h

theorem Right.get (h : c.Right g w) (k : PlanKey) : (c.get k).2.Right g w :=
  fun k' plan hm hr => h k' plan (mem_get hm) hr

theorem Right.hit (h : c.Right g w) {k : PlanKey} {plan : List StepId} (hg : (c.get k).1 = some plan)
    (hr : ∀ r ∈ k.roots, r < g.table.size) : Plan.IsPlan g w k.scope k.roots [] plan := by
  unfold PlanCache.get at hg
  split at hg
  · cases hg
  · split at hg
    · rename_i plan' hplan
      cases hg
      exact h k plan (mem_of_lookup hplan) hr
    · cases hg

/-- An entry after putting a plan in was there, or is the one put in. -/
theorem mem_insert {k : PlanKey} {plan : List StepId} {e : PlanKey × List StepId} (h : e ∈ (c.insert k plan).entries) :
    e = (k, plan) ∨ e ∈ c.entries := by
  unfold insert at h
  split at h
  · exact .inr h
  · have h := List.mem_of_mem_drop h
    split at h
    · obtain ⟨e', he', rfl⟩ := List.mem_map.1 h
      split
      · exact .inl rfl
      · exact .inr he'
    · exact (List.mem_append.1 h).symm.imp List.mem_singleton.1 id

theorem Right.insert (h : c.Right g w) {k : PlanKey} {plan : List StepId}
    (hp : Plan.IsPlan g w k.scope k.roots [] plan) : (c.insert k plan).Right g w := by
  intro k' plan' hm hr
  rcases mem_insert hm with he | hm
  · cases he
    exact hp
  · exact h k' plan' hm hr

end PlanCache

/-! ## Choosing -/

namespace Pass

variable {g : Graph} {w : Wiring} {cache : PlanCache} {scope : Scope} {dirty : DirtyIds} {forced : List StepId}

/-- A plan kept or made is what the roots and the forced steps reach, and the cache stays
right. -/
theorem plan_right (h : Wired g w) (hc : cache.Right g w) (hd : ∀ r ∈ dirty.ids, r < g.table.size) (expired : Bool) :
    (∀ steps, (plan w cache scope dirty forced expired).1 = some steps →
      Plan.IsPlan g w scope dirty.ids forced steps) ∧
    (plan w cache scope dirty forced expired).2.2.2.Right g w := by
  unfold plan
  cases forced with
  | cons s forced => exact ⟨fun steps hs => Plan.compute_isPlan h hd hs, hc⟩
  | nil =>
    have hget := hc.get ⟨scope, dirty.ids⟩
    have hhit := fun plan => @PlanCache.Right.hit _ _ _ hc ⟨scope, dirty.ids⟩ plan
    simp only [List.isEmpty_nil, if_true]
    split
    · rename_i steps cache' he
      rw [he] at hget hhit
      exact ⟨fun plan hp => hhit plan hp hd, hget⟩
    · rename_i cache' he
      rw [he] at hget
      split
      · exact ⟨nofun, hget⟩
      · rename_i steps hp
        have hplan := Plan.compute_isPlan h hd hp
        exact ⟨fun _ e => Option.some.inj e ▸ hplan, hget.insert hplan⟩

/-- The reasons to run the whole scope before a plan is looked for, if there are any. -/
def outright? (w : Wiring) (txnSeq : Nat) (scope : Scope) (config : Policy.Convergence) (dirty : DirtyIds) :
    Option (List Decision) :=
  let fixed : List Decision := if config.mode = .auto then [] else [.moduleOverride]
  if config.mode = .full then some fixed
  else if config.mode = .auto ∧ txnSeq ≤ 1 then some [.coldStart]
  else if dirty.all.isSome then some (fixed ++ [.dirtyAll])
  else if config.mode = .auto ∧ nearFullShare (w.scopeSize scope) * max 1 w.pathCount ≤ 1000 * dirty.ids.length then
    some [.nearFull]
  else none

/-- What is run once a plan was looked for: every step when there was no time for one, or
when it has nearly all of them. -/
def chosenBy (w : Wiring) (scope : Scope) (config : Policy.Convergence) :
    Option (List StepId) × List Decision × Option PlanCacheStats × PlanCache → Choice :=
  let fixed : List Decision := if config.mode = .auto then [] else [.moduleOverride]
  fun
  | (none, reasons, stats, cache) => ⟨.full, w.order scope, fixed ++ reasons ++ [.planCutoff], stats, cache⟩
  | (some steps, reasons, stats, cache) =>
    if config.mode = .auto ∧ 9 * w.scopeSize scope ≤ 10 * steps.length then
      ⟨.full, w.order scope, fixed ++ reasons ++ [.planNearFull], stats, cache⟩
    else ⟨.dirty, steps, fixed ++ reasons, stats, cache⟩

/-- Neither the cache nor the forced steps tell whether a plan is looked for. -/
theorem decide_eq (w : Wiring) (cache : PlanCache) (txnSeq : Nat) (scope : Scope) (config : Policy.Convergence)
    (dirty : DirtyIds) (forced : List StepId) : decide w cache txnSeq scope config dirty forced =
      match outright? w txnSeq scope config dirty with
      | some reasons => ⟨.full, w.order scope, reasons, none, cache⟩
      | none => chosenBy w scope config (plan w cache scope dirty forced
          (Decidable.decide (config.mode = .auto) && decisionExpired config)) := by
  unfold decide outright?
  dsimp only
  split
  · rfl
  split
  · rfl
  split
  · rfl
  split
  · rfl
  rfl

theorem all_of_outright?_eq_none {txnSeq : Nat} {config : Policy.Convergence}
    (h : outright? w txnSeq scope config dirty = none) : dirty.all = none := by
  unfold outright? at h
  cases hall : dirty.all with
  | none => rfl
  | some reason =>
    simp only [hall, Option.isSome_some, if_true] at h
    split at h
    · cases h
    · split at h <;> cases h

theorem chosenBy_cache (w : Wiring) (scope : Scope) (config : Policy.Convergence)
    (made : Option (List StepId) × List Decision × Option PlanCacheStats × PlanCache) :
    (chosenBy w scope config made).cache = made.2.2.2 := by
  obtain ⟨_ | steps, reasons, stats, cache⟩ := made
  · rfl
  · unfold chosenBy
    dsimp only
    split <;> rfl

/-- A pass runs its whole scope or a plan. -/
inductive Chosen (g : Graph) (w : Wiring) (scope : Scope) (dirty : DirtyIds) (forced : List StepId) : Choice → Prop
  | full {reasons : List Decision} {stats : Option PlanCacheStats} {cache : PlanCache} : cache.Right g w →
      Chosen g w scope dirty forced ⟨.full, w.order scope, reasons, stats, cache⟩
  | plan {steps : List StepId} {reasons : List Decision} {stats : Option PlanCacheStats} {cache : PlanCache} :
      cache.Right g w → dirty.all = none → Plan.IsPlan g w scope dirty.ids forced steps →
      Chosen g w scope dirty forced ⟨.dirty, steps, reasons, stats, cache⟩

theorem decide_chosen (h : Wired g w) (hc : cache.Right g w) (hd : ∀ r ∈ dirty.ids, r < g.table.size) (txnSeq : Nat)
    (config : Policy.Convergence) : Chosen g w scope dirty forced (decide w cache txnSeq scope config dirty forced) := by
  rw [decide_eq]
  cases hout : outright? w txnSeq scope config dirty with
  | some reasons => exact .full hc
  | none =>
    have hp := @plan_right g w cache scope dirty forced h hc hd
      (Decidable.decide (config.mode = .auto) && decisionExpired config)
    dsimp only
    generalize plan w cache scope dirty forced (Decidable.decide (config.mode = .auto) && decisionExpired config) = made
      at hp
    obtain ⟨_ | steps, reasons, stats, cache'⟩ := made
    · exact .full hp.2
    · unfold chosenBy
      dsimp only
      split
      · exact .full hp.2
      · exact .plan hp.2 (all_of_outright?_eq_none hout) (hp.1 steps rfl)

end Pass

/-! ## Work to take up -/

namespace Graph

/-- The dirty set touches an input of the step. -/
def Dirtied (g : Graph) (d : DirtySet) (i : StepId) : Prop :=
  ∃ s k q, g.step? i = some s ∧ k ∈ s.inputs ∧ g.table.path? k = some q ∧ d.touches q = true

/-- The work names the field of the step, or has a path that may move it. -/
def Owes (g : Graph) (c : Carried) (i : StepId) : Prop :=
  (∃ p ∈ c.dirtyRoots, g.Moves p i) ∨ ∃ s p, g.step? i = some s ∧ g.table.path? s.out = some p ∧ p ∈ c.forcedOuts

/-- Roots or work left behind account for the step. -/
def Due (g : Graph) (d : DirtySet) (c : Option Carried) (i : StepId) : Prop :=
  g.Dirtied d i ∨ ∃ work, c = some work ∧ g.Owes work i

/-- The dirty set touches every input of these steps that reads otherwise in the second
state than in the first. -/
def Covers (g : Graph) (steps : List StepId) (d : DirtySet) (old new : Value) : Prop :=
  ∀ j ∈ steps, ∀ s k q, g.step? j = some s → k ∈ s.inputs → g.table.path? k = some q →
    State.read old q ≠ State.read new q → d.touches q = true

variable {g : Graph} {i : StepId}

/-- What unsettles a step is an input that reads otherwise. -/
theorem Covers.dirtied (hg : g.WellFormed) (hl : g.Local) {steps : List StepId} {d : DirtySet} {old new : Value}
    (h : g.Covers steps d old new) (hi : i ∈ steps) (hs : g.Settled old i) (hn : ¬ g.Settled new i) :
    g.Dirtied d i := by
  refine Classical.byContradiction fun hd => hn ?_
  cases hstep : g.step? i with
  | none => simp [Settled, effect, hstep]
  | some s =>
    rw [Settled, ← effect_congr hg hl hstep fun k hk q hq => ?_]
    · exact hs
    · refine Classical.byContradiction fun hne => hd ⟨s, k, q, hstep, hk, hq, ?_⟩
      exact h i hi s k q hstep hk hq hne

/-- It is enough to tell the paths of the graph that read otherwise. -/
theorem covers_of_paths {steps : List StepId} {d : DirtySet} {old new : Value}
    (h : ∀ q ∈ g.table.paths, State.read old q = State.read new q ∨ d.touches q = true) : g.Covers steps d old new :=
  fun _ _ _ _ q _ _ hq hne => (h q (PathTable.mem_of_path? hq)).resolve_left hne

theorem WellFormed.stepFor?_eq (h : g.WellFormed) {s : Step} (hs : g.step? i = some s) : g.stepFor? s.out = some i := by
  obtain ⟨hlt, he⟩ := List.getElem?_eq_some_iff.1 hs
  refine List.findIdx?_eq_some_iff_getElem.2 ⟨hlt, by simp [he], fun j hj ho => ?_⟩
  have hj' : j < g.steps.length := Nat.lt_trans hj hlt
  have hj'' : g.step? j = some g.steps[j] := List.getElem?_eq_getElem hj'
  exact absurd (h.out_inj hj'' hs (of_decide_eq_true ho)) (Nat.ne_of_lt hj)

end Graph

namespace Executor

/-- The wiring is that of the graph and the cache holds what its keys reach. -/
structure Sound (e : Executor) : Prop where
  wired : Wired e.graph e.wiring
  cache : e.cache.Right e.graph e.wiring

variable {e : Executor} {ctx : Context} {req : Request} {late : Nat → Bool} {d : Diagnostics}

theorem rootsOf_lt (e : Executor) (ctx : Context) (carried : Option Carried) :
    ∀ r ∈ (e.rootsOf ctx carried).ids, r < e.graph.table.size := fun _ hr => resolve_ids_lt hr

theorem Sound.chosen (h : e.Sound) (ctx : Context) (req : Request) :
    Pass.Chosen e.graph e.wiring req.scope (e.rootsOf ctx req.carried) (e.forcedSteps req.scope req.carried)
      (e.choice ctx req) :=
  Pass.decide_chosen h.wired h.cache (rootsOf_lt e ctx req.carried) ctx.txnSeq req.config

/-- Whatever a pass chooses, it takes steps of its scope in their order. -/
theorem choice_order (h : e.Sound) (ctx : Context) (req : Request) :
    (e.choice ctx req).steps.Sublist (e.wiring.order req.scope) := by
  have hch := h.chosen ctx req
  revert hch
  generalize e.choice ctx req = ch
  intro hch
  cases hch with
  | full _ => exact List.Sublist.refl _
  | plan _ _ hp =>
    rw [hp.inOrder]
    exact List.filter_sublist

theorem choice_mem (h : e.Sound) (ctx : Context) (req : Request) :
    ∀ j ∈ (e.choice ctx req).steps, j ∈ e.wiring.order req.scope := fun _ hj => (choice_order h ctx req).subset hj

theorem passUnder_executor (late : Nat → Bool) (e : Executor) (ctx : Context) (req : Request) (d : Diagnostics) :
    (e.passUnder late ctx req d).executor = e ∨
      (e.passUnder late ctx req d).executor = { e with cache := (e.choice ctx req).cache } := by
  rw [passUnder_eq]
  split
  · exact .inl rfl
  · exact .inr rfl

theorem passUnder_graph (late : Nat → Bool) (e : Executor) (ctx : Context) (req : Request) (d : Diagnostics) :
    (e.passUnder late ctx req d).executor.graph = e.graph := by
  rcases passUnder_executor late e ctx req d with h | h <;> rw [h]

theorem passUnder_wiring (late : Nat → Bool) (e : Executor) (ctx : Context) (req : Request) (d : Diagnostics) :
    (e.passUnder late ctx req d).executor.wiring = e.wiring := by
  rcases passUnder_executor late e ctx req d with h | h <;> rw [h]

theorem Sound.passUnder (h : e.Sound) (late : Nat → Bool) (ctx : Context) (req : Request) (d : Diagnostics) :
    (e.passUnder late ctx req d).executor.Sound := by
  rcases passUnder_executor late e ctx req d with he | he
  · rwa [he]
  · rw [he]
    refine ⟨h.wired, ?_⟩
    have hch := h.chosen ctx req
    revert hch
    generalize e.choice ctx req = ch
    intro hch
    cases hch with
    | full hc => exact hc
    | plan hc _ _ => exact hc

end Executor

/-- A compiled declaration, with the wiring of its graph. -/
structure Compiled.Of (d : Declaration) (c : Compiled) : Prop where
  graph : ∃ generation, Graph.compile d generation = .ok c.graph
  wiring : c.wiring = .ofGraph c.graph

theorem Compiled.Of.wired {d : Declaration} {c : Compiled} (h : c.Of d) : Wired c.graph c.wiring := by
  obtain ⟨generation, hg⟩ := h.graph
  exact ⟨Graph.compile_wellFormed hg, h.wiring⟩

namespace Executor

/-- The executors of a compiled module, after any passes. -/
inductive Reached (c : Compiled) : Executor → Prop
  | ofCompiled (key : Key) : Reached c (.ofCompiled key c)
  | pass {e : Executor} (late : Nat → Bool) (ctx : Context) (req : Request) (d : Diagnostics) : Reached c e →
      Reached c (e.passUnder late ctx req d).executor

theorem Reached.same {c : Compiled} {e : Executor} (h : Reached c e) : e.graph = c.graph ∧ e.wiring = c.wiring := by
  induction h with
  | ofCompiled key => exact ⟨rfl, rfl⟩
  | pass late ctx req d _ ih =>
    rw [passUnder_graph, passUnder_wiring]
    exact ih

theorem Reached.sound {d : Declaration} {c : Compiled} (hc : c.Of d) {e : Executor} (h : Reached c e) : e.Sound := by
  induction h with
  | ofCompiled key => exact ⟨hc.wired, PlanCache.right_ofGeneration _⟩
  | pass late ctx req d _ ih => exact ih.passUnder late ctx req d

/-! ## Where a pass begins -/

variable {e : Executor} {ctx : Context} {req : Request}

theorem forced_mem_order {s : StepId} {scope : Scope} {carried : Option Carried} (hs : s ∈ e.forcedSteps scope carried) :
    s ∈ e.wiring.order scope := Wired.inScope_iff.1 (List.mem_filter.1 hs).2

/-- The ids marked when a pass begins. -/
def startIds (e : Executor) (ctx : Context) (req : Request) : List PathId :=
  (e.rootsOf ctx req.carried).ids ++ (e.forcedSteps req.scope req.carried).map e.wiring.out

theorem start_marks (h : e.Sound) (ctx : Context) (req : Request) :
    (e.start ctx req).marks.Of e.graph (e.startIds ctx req) := by
  refine (Marks.of_empty h.wired).foldl_mark h.wired fun k hk => ?_
  rcases List.mem_append.1 hk with hk | hk
  · exact rootsOf_lt e ctx req.carried k hk
  · obtain ⟨s, hs, rfl⟩ := List.mem_map.1 hk
    exact Plan.out_lt h.wired (forced_mem_order hs)

/-- The field of a step that carried work names is marked when a pass begins. -/
theorem touches_forced (h : e.Sound) {j : StepId} (hf : j ∈ e.forcedSteps req.scope req.carried) :
    (e.start ctx req).marks.touchesStep e.wiring j = true := by
  have hj := forced_mem_order hf
  obtain ⟨s, p, hs, hp⟩ := h.wired.exists_out hj
  have hhit : Plan.Hits e.graph e.wiring req.scope (e.wiring.out j) j :=
    ⟨hj, p, h.wired.out_eq hs ▸ hp, s, s.out, p, hs, Step.mem_inputs.2 (.inr rfl), hp, Path.overlaps_refl p⟩
  have hin : e.wiring.out j ∈ e.startIds ctx req := List.mem_append_right _ (List.mem_map_of_mem hf)
  exact Plan.touchesStep_of_hits h.wired (start_marks h ctx req) hin hhit

/-- What accounts for a step is among the roots of its pass or names it. -/
theorem due_cases (h : e.Sound) {j : StepId} (hj : j ∈ e.wiring.order req.scope)
    (hd : e.graph.Due ctx.dirty req.carried j) :
    (e.rootsOf ctx req.carried).all.isSome = true ∨
      (∃ k ∈ (e.rootsOf ctx req.carried).ids, Plan.Hits e.graph e.wiring req.scope k j) ∨
      j ∈ e.forcedSteps req.scope req.carried := by
  have hroots : ∀ s k q, e.graph.step? j = some s → k ∈ s.inputs → e.graph.table.path? k = some q →
      (dirtyOf ctx req.carried).touches q = true →
      (e.rootsOf ctx req.carried).all.isSome = true ∨
        ∃ k ∈ (e.rootsOf ctx req.carried).ids, Plan.Hits e.graph e.wiring req.scope k j := by
    intro s k q hs hk hq ht
    refine (touches_resolve h.wired.graph.table (PathTable.mem_of_path? hq) ht).imp id ?_
    intro ⟨n, hn, p, hp, ho⟩
    exact ⟨n, hn, hj, p, hp, s, k, q, hs, hk, hq, Path.overlaps_comm p q ▸ ho⟩
  rcases hd with ⟨s, k, q, hs, hk, hq, ht⟩ | ⟨work, hw, ⟨p, hp, s, k, q, hs, hk, hq, ho⟩ | ⟨s, p, hs, hout, hp⟩⟩
  · exact (hroots s k q hs hk hq (DirtySet.touches_foldl_insert.2 (.inl ht))).elim .inl (.inr ∘ .inl)
  · have ht : (dirtyOf ctx req.carried).touches q = true := by
      refine DirtySet.touches_foldl_insert.2 (.inr ⟨p, ?_, Path.overlaps_comm p q ▸ ho⟩)
      rw [hw]
      exact hp
    exact (hroots s k q hs hk hq ht).elim .inl (.inr ∘ .inl)
  · right; right
    refine List.mem_filter.2 ⟨List.mem_filterMap.2 ⟨s.out, List.mem_filterMap.2 ⟨p, ?_, ?_⟩, ?_⟩, Wired.inScope_iff.2 hj⟩
    · rw [hw]
      exact hp
    · exact h.wired.graph.table.id?_of_path? hout
    · exact h.wired.graph.stepFor?_eq hs

/-- What is due is among the steps that a pass chooses, and due when it begins. -/
theorem due_picked (h : e.Sound) {j : StepId} (hj : j ∈ e.wiring.order req.scope)
    (hd : e.graph.Due ctx.dirty req.carried j) :
    j ∈ (e.choice ctx req).steps ∧
      ((e.choice ctx req).executed = .full ∨ (e.start ctx req).marks.touchesStep e.wiring j = true) := by
  have hm := start_marks h ctx req
  have hch := h.chosen ctx req
  revert hch
  generalize e.choice ctx req = ch
  intro hch
  cases hch with
  | full _ => exact ⟨hj, .inl rfl⟩
  | plan _ hall hp =>
    rw [hp.mem_iff]
    rcases due_cases h hj hd with hs | ⟨k, hk, hhit⟩ | hf
    · rw [hall] at hs
      cases hs
    · exact ⟨.root hk hhit, .inr (Plan.touchesStep_of_hits h.wired hm (List.mem_append_left _ hk) hhit)⟩
    · exact ⟨.forced hf hj, .inr (touches_forced h hf)⟩

/-- A pass that is not idle begins with all that it takes up picked and marked: what is
due, and every step of its scope if it runs in full. -/
theorem exists_start_full (h : e.Sound) (late : Nat → Bool) {X : StepId → Prop}
    (hdue : ∀ j ∈ e.wiring.order req.scope, ¬ e.graph.Settled ctx.draft j →
      X j ∨ e.graph.Due ctx.dirty req.carried j ∨ (e.choice ctx req).executed = .full) :
    ∃ P, (e.choice ctx req).steps = (e.wiring.order req.scope).filter P ∧ Pass.Closes (frame late e req) P ∧
      Pass.Ahead (frame late e req) ((e.choice ctx req).executed = .full) P X (e.wiring.order req.scope)
        (e.start ctx req) := by
  have hm := start_marks h ctx req
  have hpicked := fun j => @due_picked e ctx req h j
  have hch := h.chosen ctx req
  revert hch hdue hpicked
  generalize e.choice ctx req = ch
  intro hdue hpicked hch
  cases hch with
  | full _ =>
    refine ⟨fun _ => true, (List.filter_eq_self.2 fun _ _ => rfl).symm, fun _ _ _ _ => rfl, ⟨_, hm⟩, fun j hj hn => ?_⟩
    exact (hdue j hj hn).imp id fun _ => ⟨rfl, .inl (decide_eq_true rfl)⟩
  | plan _ _ hp =>
    refine ⟨_, hp.inOrder, .ofPlan hp, ⟨_, hm⟩, fun j hj hn => ?_⟩
    refine (hdue j hj hn).imp id fun hd => ?_
    obtain ⟨hmem, hmarked⟩ := hpicked j hj (hd.resolve_right nofun)
    exact ⟨List.contains_iff_mem.2 hmem, hmarked.imp decide_eq_true id⟩

/-- A pass that is not idle begins with all that is due picked and marked. -/
theorem exists_start (h : e.Sound) (late : Nat → Bool) {X : StepId → Prop}
    (hdue : ∀ j ∈ e.wiring.order req.scope, ¬ e.graph.Settled ctx.draft j → X j ∨ e.graph.Due ctx.dirty req.carried j) :
    ∃ P, (e.choice ctx req).steps = (e.wiring.order req.scope).filter P ∧ Pass.Closes (frame late e req) P ∧
      Pass.Ahead (frame late e req) ((e.choice ctx req).executed = .full) P X (e.wiring.order req.scope)
        (e.start ctx req) :=
  exists_start_full h late fun j hj hn => (hdue j hj hn).imp id .inl

/-- Nothing is due for a pass that is idle. -/
theorem not_due_of_idle (h : e.Sound) (hidle : e.idle ctx req = true) {j : StepId}
    (hj : j ∈ e.wiring.order req.scope) : ¬ e.graph.Due ctx.dirty req.carried j := by
  intro hd
  simp only [idle, Bool.or_eq_true, Bool.and_eq_true, decide_eq_true_eq] at hidle
  rcases hidle with h0 | ⟨hr, hf⟩
  · rw [Wiring.scopeSize, List.length_eq_zero_iff] at h0
    rw [h0] at hj
    cases hj
  · simp only [DirtyIds.isEmpty, Bool.and_eq_true, Option.isNone_iff_eq_none, List.isEmpty_iff] at hr hf
    rcases due_cases h hj hd with hs | ⟨k, hk, -⟩ | hm
    · rw [hr.1] at hs
      cases hs
    · rw [hr.2] at hk
      cases hk
    · rw [hf] at hm
      cases hm

/-- The writes that a pass makes, in order, those of a pass that is rolled back among
them. -/
def writes (late : Nat → Bool) (e : Executor) (ctx : Context) (req : Request) : List (Path × Value) :=
  if e.idle ctx req then [] else e.graph.writesOf (e.sweep late ctx req).run.patches

end Executor

/-! ## A relay -/

namespace Relay

def x : Path := ⟨["x"], by decide⟩

def a : Path := ⟨["a"], by decide⟩

def b : Path := ⟨["b"], by decide⟩

def derive : Derive := .ofRun none fun v => ⟨.ok ((State.read v x).getD .null), [x]⟩

/-- `a` copies `x`, and the deferred `b` copies `a`. -/
def declaration : Declaration :=
  (Declaration.named "relay").group
    (((Group.named "relay").field "a" (.computed ⟨["x"], derive, none, .immediate⟩)).field "b" (.link "a" .deferred))

def graph : Graph where
  moduleId := "relay"
  table := ⟨[a, b, x]⟩
  steps := [⟨0, .computed, 0, [2], none, .immediate, "a", "relay"⟩, ⟨1, .link, 1, [0], some 0, .deferred, "b", "relay"⟩]
  bodies := [.computed derive none, .link]
  orders := ⟨⟨[0, 1], []⟩, ⟨[0], []⟩, ⟨[1], []⟩⟩
  levels := [[0], [1]]
  reserved := []
  shapeWarnings := []
  generation := 1

def compiled : Compiled := ⟨graph, .ofGraph graph⟩

theorem compiled_of : compiled.Of declaration := by
  refine ⟨⟨1, ?_⟩, rfl⟩
  unfold compiled graph
  cbv

def state (x a b : Int) : Value := .obj [("a", .int a), ("b", .int b), ("x", .int x)]

def executor : Executor := .ofCompiled ⟨"relay", "1"⟩ compiled

/-- A mode and a step cap, without a budget for decisions. -/
def config (mode : Policy.Mode) (cap : Nat) : Policy.Convergence :=
  { Policy.Convergence.builtin with
    mode := mode, stepCap := some cap, decisionBudgetMs := ⟨0x8000000000000000, by decide⟩ }

theorem local_ : graph.Local := by
  refine Graph.local_of_zip fun s d eq hs v w hd => ?_
  obtain ⟨rfl, rfl, rfl⟩ : s = graph.steps[0] ∧ d = derive ∧ eq = none := by simpa [graph] using hs
  have hx := hd 2 List.mem_cons_self x rfl
  simp only [derive, Derive.ofRun_run, hx]

theorem reflexive : graph.Reflexive := Graph.reflexive_of_mem (by simp [graph])

theorem selfFree : graph.SelfFree := by decide

theorem total : graph.Total := by
  refine Graph.total_of_mem fun d eq hb v => ?_
  obtain ⟨rfl, rfl⟩ : d = derive ∧ eq = none := by simpa [graph] using hb
  exact ⟨_, rfl⟩

theorem settled_at_rest : ∀ j ∈ compiled.wiring.order .all, graph.Settled (state 1 1 1) j := by
  intro j hj
  have hj : j ∈ [0, 1] := hj
  rcases List.mem_cons.1 hj with rfl | hj
  · cbv
  · obtain rfl := List.mem_singleton.1 hj
    cbv

/-- A change of `x` alone is covered by it. -/
theorem covers_x {steps : List StepId} (m n a b : Int) :
    graph.Covers steps (.ofPaths [x]) (state m a b) (state n a b) := by
  refine Graph.covers_of_paths fun q hq => ?_
  have hq : q ∈ [Relay.a, Relay.b, x] := hq
  simp only [List.mem_cons, List.not_mem_nil, or_false] at hq
  rcases hq with rfl | rfl | rfl
  · exact .inl rfl
  · exact .inl rfl
  · exact .inr (by cbv)

/-- What a change of `x` unsettles is due for it. -/
theorem due_of_x {n : Int} {j : StepId} (hj : j ∈ compiled.wiring.order .all) (hn : ¬ graph.Settled (state n 1 1) j) :
    graph.Due (.ofPaths [x]) none j :=
  .inl ((covers_x 1 n 1 1).dirtied compiled_of.wired.graph local_ hj (settled_at_rest j hj) hn)

end Relay

end Settle
