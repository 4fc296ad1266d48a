/-
  Settle.Proofs.PlanCache — what keeping plans changes about passes (see
  `Settle.Plan.Cache`).

  An executor follows the answers of one compile cache (`GraphCache.Calls.run`), in any
  order, with any passes between them. A plan is kept under scope and roots alone, but
  entries stay only while the generation stays, and in one generation there is one graph
  (`content_eq_of_generation`). So every plan kept is the one that would be made now
  (`Twin.rebind`, `Twin.passUnder`).

  `run_agrees` sets the executor beside one whose cache is off and misses every time.
  After the same operations both passes come to the same result, whatever hits,
  evictions and generations there were, but for one case: with a decision deadline the
  pass that has to make its plan may be cut off and run its whole scope, where a kept
  plan needs no time. `Fan.hit_beats_the_deadline` is such a pass.
-/

import Settle.Proofs.Carry
import Settle.Proofs.GraphCache

namespace Settle

/-! ## A cache that is off -/

namespace PlanCache

variable {c : PlanCache}

/-- The cache turned off: it answers nothing and takes nothing. -/
def off (c : PlanCache) : PlanCache := { c with stats := { c.stats with disabled := true } }

theorem get_of_disabled (h : c.stats.disabled = true) (k : PlanKey) : c.get k = (none, c) := by
  simp [get, h]

theorem insert_of_disabled (h : c.stats.disabled = true) (k : PlanKey) (plan : List StepId) : c.insert k plan = c := by
  simp [insert, h]

theorem disabled_syncGeneration (h : c.stats.disabled = true) (n : Nat) :
    (c.syncGeneration n).stats.disabled = true := by
  unfold syncGeneration
  split
  · exact h
  · simp [h]

theorem generation_get (c : PlanCache) (k : PlanKey) : (c.get k).2.generation = c.generation := by
  unfold get
  split
  · rfl
  · split <;> rfl

theorem generation_insert (c : PlanCache) (k : PlanKey) (plan : List StepId) :
    (c.insert k plan).generation = c.generation := by
  unfold insert
  split <;> rfl

theorem generation_syncGeneration (c : PlanCache) (n : Nat) : (c.syncGeneration n).generation = n := by
  unfold syncGeneration
  split
  · rename_i h
    exact h.symm
  · rfl

/-- Moving to another generation leaves no entry. -/
theorem entries_syncGeneration (c : PlanCache) (n : Nat) :
    n = c.generation ∧ c.syncGeneration n = c ∨ n ≠ c.generation ∧ (c.syncGeneration n).entries = [] := by
  unfold syncGeneration
  by_cases h : n = c.generation
  · rw [if_pos h]
    exact .inl ⟨h, rfl⟩
  · rw [if_neg h]
    exact .inr ⟨h, rfl⟩

/-- A plan that is found is the one that would be made now. -/
theorem Right.hit_eq {g : Graph} {w : Wiring} (hw : Wired g w) (h : c.Right g w) {k : PlanKey} {plan : List StepId}
    (hk : (c.get k).1 = some plan) (hr : ∀ r ∈ k.roots, r < g.table.size) :
    Plan.compute w k.scope k.roots [] false = some plan := by
  obtain ⟨made, hmade⟩ := Plan.compute_of_unexpired w k.scope k.roots []
  have hmade' := Plan.compute_isPlan hw hr hmade
  rw [hmade, (h.hit hk hr).eq hmade']

/-- What is right for a graph is right for another of the same tables. -/
theorem Right.congr {g g' : Graph} {w : Wiring} (hw : Wired g w) (hw' : Wired g' w) (ht : g'.table = g.table)
    (h : c.Right g w) : c.Right g' w := by
  intro k plan hk hr
  have hplan := h k plan hk (ht ▸ hr)
  obtain ⟨made, hmade⟩ := Plan.compute_of_unexpired w k.scope k.roots []
  have hsame := hplan.eq (Plan.compute_isPlan hw (ht ▸ hr) hmade)
  rw [hsame]
  exact Plan.compute_isPlan hw' hr hmade

end PlanCache

/-! ## Choosing with and without a cache -/

/-- The reason tells where the plan came from. -/
def Decision.ofCache (d : Decision) : Bool := d = .cacheHit || d = .cacheMiss

/-- The reasons less where the plan came from. -/
def Decision.apart (ds : List Decision) : List Decision := ds.filter fun d => !d.ofCache

namespace Pass

variable {g : Graph} {w : Wiring} {cache cache' : PlanCache} {scope : Scope} {dirty : DirtyIds} {forced : List StepId}

/-- Both choices run the same steps, for the same reasons. -/
def Choice.Agree (a b : Choice) : Prop :=
  a.executed = b.executed ∧ a.steps = b.steps ∧ Decision.apart a.reasons = Decision.apart b.reasons

theorem plan_of_disabled (h : cache.stats.disabled = true) (expired : Bool) :
    (plan w cache scope dirty forced expired).1 = Plan.compute w scope dirty.ids forced expired ∧
    Decision.apart (plan w cache scope dirty forced expired).2.1 = [] ∧
    (plan w cache scope dirty forced expired).2.2.2 = cache := by
  unfold plan
  cases forced with
  | cons s forced => exact ⟨rfl, rfl, rfl⟩
  | nil =>
    simp only [List.isEmpty_nil, if_true, PlanCache.get_of_disabled h]
    cases Plan.compute w scope dirty.ids [] expired with
    | none => exact ⟨rfl, rfl, rfl⟩
    | some steps => exact ⟨rfl, rfl, PlanCache.insert_of_disabled h _ _⟩

/-- A plan with the cache is the one made without it, unless the cache has one and there
was no time to make it. -/
theorem plan_of_right (h : Wired g w) (hc : cache.Right g w) (hd : ∀ r ∈ dirty.ids, r < g.table.size) (expired : Bool) :
    Decision.apart (plan w cache scope dirty forced expired).2.1 = [] ∧
    (plan w cache scope dirty forced expired).2.2.2.generation = cache.generation ∧
    ((plan w cache scope dirty forced expired).1 = Plan.compute w scope dirty.ids forced expired ∨
      Plan.compute w scope dirty.ids forced expired = none ∧
        .cacheHit ∈ (plan w cache scope dirty forced expired).2.1) := by
  unfold plan
  cases forced with
  | cons s forced => exact ⟨rfl, rfl, .inl rfl⟩
  | nil =>
    have hgen := cache.generation_get ⟨scope, dirty.ids⟩
    have hhit := fun plan => @PlanCache.Right.hit _ _ _ hc ⟨scope, dirty.ids⟩ plan
    simp only [List.isEmpty_nil, if_true]
    split
    · rename_i steps cache' he
      rw [he] at hgen hhit
      refine ⟨rfl, hgen, ?_⟩
      cases hmade : Plan.compute w scope dirty.ids [] expired with
      | none => exact .inr ⟨rfl, List.mem_singleton.2 rfl⟩
      | some made => exact .inl (by rw [(hhit steps rfl hd).eq (Plan.compute_isPlan h hd hmade)])
    · rename_i cache' he
      rw [he] at hgen
      cases Plan.compute w scope dirty.ids [] expired with
      | none => exact ⟨rfl, hgen, .inl rfl⟩
      | some steps => exact ⟨rfl, (PlanCache.generation_insert _ _ _).trans hgen, .inl rfl⟩

theorem apart_append (ds ds' : List Decision) : Decision.apart (ds ++ ds') = Decision.apart ds ++ Decision.apart ds' := by
  simp [Decision.apart]

theorem decide_of_disabled (h : cache.stats.disabled = true) (txnSeq : Nat) (config : Policy.Convergence) :
    (decide w cache txnSeq scope config dirty forced).cache = cache := by
  rw [decide_eq]
  split
  · rfl
  · rw [chosenBy_cache]
    exact (plan_of_disabled h _).2.2

/-- The same plan is used the same way. -/
theorem chosenBy_agree (config : Policy.Convergence)
    {made made' : Option (List StepId) × List Decision × Option PlanCacheStats × PlanCache} (hplan : made.1 = made'.1)
    (hreasons : Decision.apart made.2.1 = Decision.apart made'.2.1) :
    (chosenBy w scope config made).Agree (chosenBy w scope config made') := by
  obtain ⟨steps, reasons, stats, cache⟩ := made
  obtain ⟨steps', reasons', stats', cache'⟩ := made'
  dsimp only at hplan hreasons
  obtain rfl := hplan
  unfold chosenBy
  cases steps with
  | none => exact ⟨rfl, rfl, by simp only [apart_append, hreasons]⟩
  | some steps =>
    dsimp only
    split
    · exact ⟨rfl, rfl, by simp only [apart_append, hreasons]⟩
    · exact ⟨rfl, rfl, by simp only [apart_append, hreasons]⟩

/-- The reasons of the plan are reasons of the choice. -/
theorem mem_chosenBy (config : Policy.Convergence)
    {made : Option (List StepId) × List Decision × Option PlanCacheStats × PlanCache} {d : Decision}
    (hd : d ∈ made.2.1) : d ∈ (chosenBy w scope config made).reasons := by
  obtain ⟨_ | steps, reasons, stats, cache⟩ := made
  · simp [chosenBy, hd]
  · unfold chosenBy
    dsimp only
    split <;> simp [hd]

/-- Without a plan the choice tells that there was no time for one. -/
theorem chosenBy_cutoff (config : Policy.Convergence)
    {made : Option (List StepId) × List Decision × Option PlanCacheStats × PlanCache} (hnone : made.1 = none) :
    .planCutoff ∈ (chosenBy w scope config made).reasons := by
  obtain ⟨steps, reasons, stats, cache⟩ := made
  dsimp only at hnone
  subst hnone
  simp [chosenBy]

/-- A right cache leaves the choice as it is without one, unless it has a plan that there
was no time to make. -/
theorem decide_agree (h : Wired g w) (hc : cache.Right g w) (hoff : cache'.stats.disabled = true)
    (hd : ∀ r ∈ dirty.ids, r < g.table.size) (txnSeq : Nat) (config : Policy.Convergence) :
    (decide w cache txnSeq scope config dirty forced).cache.generation = cache.generation ∧
    ((decide w cache txnSeq scope config dirty forced).Agree (decide w cache' txnSeq scope config dirty forced) ∨
      .cacheHit ∈ (decide w cache txnSeq scope config dirty forced).reasons ∧
        .planCutoff ∈ (decide w cache' txnSeq scope config dirty forced).reasons) := by
  have hright := @plan_of_right g w cache scope dirty forced h hc hd
    (Decidable.decide (config.mode = .auto) && decisionExpired config)
  have hplain := @plan_of_disabled w cache' scope dirty forced hoff
    (Decidable.decide (config.mode = .auto) && decisionExpired config)
  rw [decide_eq, decide_eq]
  cases outright? w txnSeq scope config dirty with
  | some reasons => exact ⟨rfl, .inl ⟨rfl, rfl, rfl⟩⟩
  | none =>
    dsimp only
    rw [chosenBy_cache]
    revert hright hplain
    generalize plan w cache scope dirty forced
      (Decidable.decide (config.mode = .auto) && decisionExpired config) = made
    generalize plan w cache' scope dirty forced
      (Decidable.decide (config.mode = .auto) && decisionExpired config) = made'
    rintro ⟨hreasons, hgen, hsame⟩ ⟨hmade, hreasons', -⟩
    refine ⟨hgen, ?_⟩
    rcases hsame with hsame | ⟨hnone, hhit⟩
    · exact .inl (chosenBy_agree config (hsame.trans hmade.symm) (hreasons.trans hreasons'.symm))
    · exact .inr ⟨mem_chosenBy config hhit, chosenBy_cutoff config (hmade.trans hnone)⟩

end Pass

/-! ## Passes with and without a cache -/

namespace Executor

/-- What a pass comes to, less where its plan came from. -/
structure Upshot where
  context : Context
  changed : List Path
  carried : Option Carried
  calls : List String
  summary : Summary

def Passed.upshot (p : Passed) : Upshot where
  context := p.context
  changed := p.outcome.changed
  carried := p.outcome.carried
  calls := p.calls
  summary := { p.outcome.summary with reasons := Decision.apart p.outcome.summary.reasons, cache := none }

/-- An executor whose cache is off. -/
def uncached (e : Executor) : Executor := { e with cache := e.cache.off }

variable {e e' : Executor} {late : Nat → Bool} {ctx : Context} {req : Request} {d : Diagnostics}

theorem passUnder_cache (late : Nat → Bool) (e : Executor) (ctx : Context) (req : Request) (d : Diagnostics) :
    (e.passUnder late ctx req d).executor.cache = e.cache ∨
      (e.passUnder late ctx req d).executor.cache = (e.choice ctx req).cache := by
  rcases passUnder_executor late e ctx req d with h | h
  · exact .inl (by rw [h])
  · exact .inr (by rw [h])

/-- A pass goes by the choice alone, whatever cache it was made with. -/
theorem upshot_of_agree {cache : PlanCache} (h : (e.choice ctx req).Agree ({ e with cache := cache }.choice ctx req)) :
    (e.passUnder late ctx req d).upshot = (passUnder late { e with cache := cache } ctx req d).upshot := by
  obtain ⟨hexecuted, hsteps, hreasons⟩ := h
  have hsweep : e.sweep late ctx req = sweep late { e with cache := cache } ctx req := by
    simp only [sweep, hexecuted, hsteps]
    rfl
  cases hidle : e.idle ctx req with
  | true =>
    have hidle' : idle { e with cache := cache } ctx req = true := hidle
    rw [passUnder_of_idle d hidle, passUnder_of_idle d hidle']
    rfl
  | false =>
    have hidle' : idle { e with cache := cache } ctx req = false := hidle
    rw [passUnder_of_due d hidle, passUnder_of_due d hidle']
    simp only [close, Passed.upshot, hsweep, hexecuted, hsteps, Pass.apart_append, hreasons]
    rfl

theorem mem_reasons (h : e.idle ctx req = false) {r : Decision} (hr : r ∈ (e.choice ctx req).reasons) :
    r ∈ (e.passUnder late ctx req d).outcome.summary.reasons := by
  rw [passUnder_of_due d h]
  exact List.mem_append_right _ hr

/-! ## Runs -/

/-- What is done with an executor. -/
inductive Op where
  | pass (late : Nat → Bool) (ctx : Context) (req : Request) (d : Diagnostics)
  /-- Follow a new compilation. -/
  | rebind (c : Compiled)

def Op.run (e : Executor) : Op → Executor
  | .pass late ctx req d => (e.passUnder late ctx req d).executor
  | .rebind c => e.rebind c

open GraphCache (Answer)
open GraphCache.Calls (ToldApart)

/-- The compilation was answered to one of the calls, for the module. -/
def AnsweredTo (ds : List Declaration) (m : String) (c : Compiled) : Prop :=
  ∃ b ∈ (GraphCache.Calls.run ds).answers, b.1.moduleId = m ∧ b.2.compiled = c

/-- A rebinding is to what was answered for the module. -/
def Op.Lawful (ds : List Declaration) (m : String) : Op → Prop
  | .pass .. => True
  | .rebind c => AnsweredTo ds m c

/-- An executor and another one, bound alike, whose cache is off. -/
structure Twin (ds : List Declaration) (m : String) (e e' : Executor) : Prop where
  same : e' = { e with cache := e'.cache }
  off : e'.cache.stats.disabled = true
  bound : AnsweredTo ds m ⟨e.graph, e.wiring⟩
  generation : e.cache.generation = e.graph.generation
  right : e.cache.Right e.graph e.wiring

variable {ds : List Declaration} {m : String}

theorem AnsweredTo.wired (h : ToldApart ds) {c : Compiled} (hc : AnsweredTo ds m c) : Wired c.graph c.wiring := by
  obtain ⟨b, hb, -, rfl⟩ := hc
  exact (GraphCache.Calls.answers_of h b hb).wired

/-- Answers of one generation have the same table and the same wiring. -/
theorem AnsweredTo.same (h : ToldApart ds) {c c' : Compiled} (hc : AnsweredTo ds m c) (hc' : AnsweredTo ds m c')
    (hn : c.graph.generation = c'.graph.generation) : c.graph.table = c'.graph.table ∧ c.wiring = c'.wiring := by
  obtain ⟨b, hb, hbm, rfl⟩ := hc
  obtain ⟨b', hb', hbm', rfl⟩ := hc'
  have hcontent := GraphCache.Calls.content_eq_of_generation h hb hb' (hbm.trans hbm'.symm) hn
  have hkept := GraphCache.Calls.run_kept ds
  refine ⟨congrArg Graph.Content.table hcontent, ?_⟩
  rw [(GraphCache.Calls.answers_of h b hb).wiring, (GraphCache.Calls.answers_of h b' hb').wiring]
  exact Graph.ofGraph_eq_of_content (hkept.compiled b hb) (hkept.compiled b' hb') hcontent hn

theorem Twin.ofCompiled {key : Key} {c : Compiled} (hc : AnsweredTo ds m c) :
    Twin ds m (ofCompiled key c) (ofCompiled key c).uncached where
  same := rfl
  off := rfl
  bound := hc
  generation := rfl
  right := PlanCache.right_ofGeneration _

/-- Following another answer keeps the entries only if they are right for it. -/
theorem Twin.rebind (h : ToldApart ds) (ht : Twin ds m e e') {c : Compiled} (hc : AnsweredTo ds m c) :
    Twin ds m (e.rebind c) (e'.rebind c) := by
  constructor
  case same =>
    rw [ht.same]
    rfl
  case off => exact PlanCache.disabled_syncGeneration ht.off _
  case bound => exact hc
  case generation => exact PlanCache.generation_syncGeneration _ _
  case right =>
    rcases e.cache.entries_syncGeneration c.graph.generation with ⟨hgen, hsame⟩ | ⟨-, hempty⟩
    · obtain ⟨htable, hwiring⟩ := ht.bound.same h hc (ht.generation.symm.trans hgen.symm)
      have hw' := hc.wired h
      show (e.cache.syncGeneration c.graph.generation).Right c.graph c.wiring
      rw [hsame]
      rw [← hwiring] at hw' ⊢
      exact ht.right.congr (ht.bound.wired h) hw' htable.symm
    · intro k plan hk
      have hk' : (k, plan) ∈ (e.cache.syncGeneration c.graph.generation).entries := hk
      rw [hempty] at hk'
      cases hk'

theorem Twin.choice (h : ToldApart ds) (ht : Twin ds m e e') (ctx : Context) (req : Request) :
    (e.choice ctx req).cache.generation = e.cache.generation ∧
    ((e.choice ctx req).Agree (e'.choice ctx req) ∨
      .cacheHit ∈ (e.choice ctx req).reasons ∧ .planCutoff ∈ (e'.choice ctx req).reasons) := by
  rw [ht.same]
  exact Pass.decide_agree (ht.bound.wired h) ht.right ht.off (rootsOf_lt e ctx req.carried) ctx.txnSeq req.config

theorem Twin.passUnder (h : ToldApart ds) (ht : Twin ds m e e') (late : Nat → Bool) (ctx : Context) (req : Request)
    (d : Diagnostics) : Twin ds m (e.passUnder late ctx req d).executor (e'.passUnder late ctx req d).executor := by
  have hsound : e.Sound := ⟨ht.bound.wired h, ht.right⟩
  have hoff' : (e'.choice ctx req).cache = e'.cache := Pass.decide_of_disabled ht.off _ _
  have hcache' : (e'.passUnder late ctx req d).executor = e' := by
    rcases passUnder_executor late e' ctx req d with he | he
    · exact he
    · rw [he, hoff']
  rw [hcache']
  constructor
  case same =>
    rw [ht.same]
    rcases passUnder_executor late e ctx req d with he | he
    · rw [he]
    · rw [he]
  case off => exact ht.off
  case bound =>
    rw [passUnder_graph, passUnder_wiring]
    exact ht.bound
  case generation =>
    rw [passUnder_graph, ← ht.generation]
    rcases passUnder_cache late e ctx req d with he | he
    · rw [he]
    · rw [he]
      exact (ht.choice h ctx req).1
  case right => exact (hsound.passUnder late ctx req d).cache

theorem Twin.run (h : ToldApart ds) {ops : List Op} (hops : ∀ op ∈ ops, op.Lawful ds m) (ht : Twin ds m e e') :
    Twin ds m (ops.foldl Op.run e) (ops.foldl Op.run e') := by
  induction ops generalizing e e' with
  | nil => exact ht
  | cons op ops ih =>
    refine ih (fun o ho => hops o (List.mem_cons_of_mem _ ho)) ?_
    cases op with
    | pass late ctx req d => exact ht.passUnder h late ctx req d
    | rebind c => exact ht.rebind h (hops _ List.mem_cons_self)

/-- A plan found is the one made now, and names steps of the graph. -/
theorem Twin.hit (h : ToldApart ds) (ht : Twin ds m e e') {plan : List StepId}
    (hhit : (e.cache.get ⟨req.scope, (e.rootsOf ctx req.carried).ids⟩).1 = some plan) :
    Plan.compute e.wiring req.scope (e.rootsOf ctx req.carried).ids [] false = some plan ∧
      ∀ s ∈ plan, (e.graph.step? s).isSome = true := by
  have hw := ht.bound.wired h
  have hr := rootsOf_lt e ctx req.carried
  have hmade := ht.right.hit_eq hw hhit hr
  refine ⟨hmade, fun s hs => ?_⟩
  have hreached := ((Plan.compute_isPlan hw hr hmade).mem_iff s).1 hs
  obtain ⟨st, -, hst, -⟩ := hw.exists_out hreached.mem_order
  simp [hst]

/-- Whatever passes and rebindings came before: a plan that the cache has is the one that
would be made now, and the next pass comes to the same as with a cache that always
misses, unless that one's plan is cut off at the deadline and the cache has it. -/
theorem run_agrees (h : ToldApart ds) {key : Key} {c : Compiled} (hc : AnsweredTo ds key.moduleId c) {ops : List Op}
    (hops : ∀ op ∈ ops, op.Lawful ds key.moduleId) (late : Nat → Bool) (ctx : Context) (req : Request)
    (d : Diagnostics) :
    let e := ops.foldl Op.run (ofCompiled key c)
    let missing := ops.foldl Op.run (ofCompiled key c).uncached
    (∀ plan, (e.cache.get ⟨req.scope, (e.rootsOf ctx req.carried).ids⟩).1 = some plan →
      Plan.compute e.wiring req.scope (e.rootsOf ctx req.carried).ids [] false = some plan ∧
        ∀ s ∈ plan, (e.graph.step? s).isSome = true) ∧
    (∀ k, (missing.cache.get k).1 = none) ∧
    ((e.passUnder late ctx req d).upshot = (missing.passUnder late ctx req d).upshot ∨
      .cacheHit ∈ (e.passUnder late ctx req d).outcome.summary.reasons ∧
        .planCutoff ∈ (missing.passUnder late ctx req d).outcome.summary.reasons) := by
  intro e missing
  have ht : Twin ds key.moduleId e missing := Twin.run h hops (Twin.ofCompiled hc)
  refine ⟨fun plan hhit => ht.hit h hhit, fun k => ?_, ?_⟩
  · rw [PlanCache.get_of_disabled ht.off]
  · rcases (ht.choice h ctx req).2 with hagree | ⟨hhit, hcut⟩
    · rw [ht.same] at hagree ⊢
      exact .inl (upshot_of_agree hagree)
    · cases hidle : e.idle ctx req with
      | false =>
        have hidle' : missing.idle ctx req = false := by
          rw [ht.same]
          exact hidle
        exact .inr ⟨mem_reasons hidle hhit, mem_reasons hidle' hcut⟩
      | true =>
        have hidle' : missing.idle ctx req = true := by
          rw [ht.same]
          exact hidle
        refine .inl ?_
        rw [passUnder_of_idle _ hidle, passUnder_of_idle _ hidle', ht.same]
        rfl

end Executor

namespace Relay

open Executor GraphCache

/-- The relay of `seven` in the generation and with the wiring of the first one. -/
def rewired : Compiled where
  graph :=
    { graph with
      steps := [⟨0, .computed, 0, [2], none, .immediate, "a", "sevens"⟩, ⟨1, .link, 1, [0], some 0, .deferred, "b", "links"⟩]
      bodies := [.computed (.ofRun none fun _ => ⟨.ok (.int 7), []⟩) (some Value.same), .link] }
  wiring := .ofGraph graph

theorem answers_eq : (Calls.run [declaration, seven]).answers =
    [(seven, ⟨rewired, true⟩), (declaration, ⟨compiled, false⟩)] := by
  unfold rewired compiled graph
  cbv

/-- A pass that plans for a change of `x`, then the other functions. -/
def replaced : List Op :=
  [.pass (fun _ => false) ⟨state 3 0 0, [], .roots [x], 2⟩ ⟨.all, config .dirty 64, none⟩
    (.ofReporting Policy.Reporting.builtin false), .rebind rewired]

/-- The plan made for the first functions is found for the others, and the pass that
follows it comes to what it would come to without. -/
theorem replaced_agrees :
    let e := replaced.foldl Op.run (.ofCompiled ⟨"relay", "1"⟩ compiled)
    let missing := replaced.foldl Op.run (uncached (.ofCompiled ⟨"relay", "1"⟩ compiled))
    let after (e : Executor) := e.passUnder (fun _ => false) ⟨state 4 3 3, [], .roots [x], 3⟩
      ⟨.all, config .dirty 64, none⟩ (.ofReporting Policy.Reporting.builtin false)
    (e.cache.get ⟨.all, [2]⟩).1 = some [0, 1] ∧
    ((after e).upshot = (after missing).upshot ∨
      .cacheHit ∈ (after e).outcome.summary.reasons ∧ .planCutoff ∈ (after missing).outcome.summary.reasons) := by
  have htold : Calls.ToldApart [declaration, seven] := asked_toldApart.mono (by simp [asked])
  have hfirst : AnsweredTo [declaration, seven] "relay" compiled :=
    ⟨(declaration, ⟨compiled, false⟩), by simp [answers_eq], rfl, rfl⟩
  have hsecond : AnsweredTo [declaration, seven] "relay" rewired :=
    ⟨(seven, ⟨rewired, true⟩), by simp [answers_eq], rfl, rfl⟩
  have hops : ∀ op ∈ replaced, op.Lawful [declaration, seven] "relay" := by
    intro op hop
    rcases List.mem_cons.1 hop with rfl | hop
    · trivial
    · obtain rfl := List.mem_singleton.1 hop
      exact hsecond
  exact ⟨by cbv, (run_agrees htold hfirst hops _ _ _ _).2.2⟩

end Relay

/-! ## A pass that has no time to plan -/

theorem mergeSort_path {l sorted : List Path} (hp : l.Perm sorted) (hs : sorted.Pairwise fun p q => p.le q) :
    l.mergeSort Path.le = sorted :=
  ((List.mergeSort_perm l _).trans hp).eq_of_pairwise (fun _ _ _ _ => Path.le_antisymm) (Path.pairwise_mergeSort_le l) hs

namespace Fan

open Executor

/-- The fields that `a` depends on besides `b`. -/
def blades : List String := (List.range' 10 32).map fun n => s!"x{n}"

/-- `a` depends on all blades and on the deferred `b`, which copies it; `c` copies `y`. -/
def declaration : Declaration :=
  (Declaration.named "fan").group
    ((((Group.named "fan").field "a"
      (.computed ⟨"b" :: blades, .ofRun none fun _ => ⟨.ok (.int 0), []⟩, none, .immediate⟩)).field
      "b" (.link "a" .deferred)).field "c" (.link "y" .immediate))

def state : Value := .obj [("a", .int 0), ("b", .int 0), ("c", .int 0), ("y", .int 1)]

/-- Every blade is dirty, `y` is not. -/
def context (seq : Nat) : Context := ⟨state, [], .roots (blades.filterMap fun t => (Path.parse t).toOption), seq⟩

/-- A pass over all steps with a nanosecond to make its plan. -/
def request (mode : Policy.Mode) : Request :=
  ⟨.all, { Policy.Convergence.builtin with mode := mode, decisionBudgetMs := ⟨0x3eb0c6f7a0b5ed8d, by decide⟩ }, none⟩

def quiet : Diagnostics := .ofReporting Policy.Reporting.builtin false

/-- The draft after a planned pass and one that decides. -/
def draft (e : Executor) : Value :=
  (passUnder (fun _ => false) ((Op.pass (fun _ => false) (context 1) (request .dirty) quiet).run e) (context 2)
    (request .auto) quiet).context.draft

def outline : Outline := (Outline.ofDeclaration declaration).toOption.getD .empty

def field (name : String) : Path := ⟨[name], by simp⟩

def table : PathTable := ⟨(["a", "b", "c"] ++ blades ++ ["y"]).map field⟩

def steps : List Step :=
  [⟨0, .computed, 0, 1 :: List.range' 3 32, none, .immediate, "a", "fan"⟩, ⟨1, .link, 1, [0], some 0, .deferred, "b", "fan"⟩,
    ⟨2, .link, 2, [35], some 35, .immediate, "c", "fan"⟩]

def graph : Graph where
  moduleId := "fan"
  table := table
  steps := steps
  bodies := outline.drafts.map (·.body)
  orders := ⟨⟨[2, 0, 1], [0, 1]⟩, ⟨[0, 2], []⟩, ⟨[1], []⟩⟩
  levels := [[2]]
  reserved := []
  shapeWarnings := []
  generation := 1

def wiring : Wiring where
  generation := 1
  pathCount := 36
  shallow := true
  chains := (List.range 36).map fun i => [i]
  exact := [[0, 1], [0, 1], [2]] ++ List.replicate 32 [0] ++ [[2]]
  under := [[0, 1], [0, 1], [2]] ++ List.replicate 32 [0] ++ [[2]]
  inputs := [0 :: 1 :: List.range' 3 32, [0, 1], [2, 35]]
  outs := [0, 1, 2]
  deferred := [false, true, false]
  orders := ⟨[2, 0, 1], [0, 2], [1]⟩
  backEdges := ⟨true, false, false⟩

/-- The paths of the drafts in order, with repetitions. -/
def named : List Path := (["a", "a", "b", "b", "c"] ++ blades ++ ["y"]).map field

/-- The sweep of a choice when all blades are dirty. -/
def swept (c : Pass.Choice) : Pass.Swept :=
  Pass.rounds ⟨graph, wiring, .all, 64, fun _ => false, true⟩ (c.executed = .full) c.steps
    ⟨state, [], (List.range' 3 32).foldl (Marks.mark wiring) (.empty wiring), [], 0, [], [], []⟩ 1

/-- The choice of a pass when all blades are dirty. -/
def choose (cache : PlanCache) (seq : Nat) (mode : Policy.Mode) : Pass.Choice :=
  Pass.decide wiring cache seq .all (request mode).config ⟨List.range' 3 32, none⟩ []

def bound (cache : PlanCache) : Executor := ⟨⟨"fan", "1"⟩, graph, wiring, cache⟩

/-- Whether `c` is what `y` is. -/
def copied (v : Value) : Bool := (State.read v (field "c")).any (·.same (.int 1))

/-- What evaluation says of the steps and their paths. No evaluation opens a sort, so where
the code sorts these say that the list is sorted, or what it is a permutation of. -/
structure Evaluated : Prop where
  compiles : (Outline.ofDeclaration declaration).toOption.isSome = true
  reserved : outline.reserved = []
  drafts_sorted : outline.drafts.Pairwise fun a b => a.out.le b.out
  named_perm : ((outline.drafts.flatMap fun d => d.out :: d.deps).flatMap Path.ancestry).Perm named
  named_sorted : named.Pairwise fun p q => p.le q
  named_distinct : named.eraseReps = table.paths
  rows : outline.drafts.mapIdx (fun i x => { x.step table i with deps := x.deps.filterMap table.id? }) = steps
  deps_sorted : ∀ s ∈ steps, s.deps.Pairwise (· ≤ ·) ∧ s.deps.eraseReps = s.deps
  acyclic : Order.linkCycle steps = none
  order_all : Graph.orderOf table steps .all = (⟨[2, 0, 1], [0, 1]⟩, [[2]])
  order_immediate : (Graph.orderOf table steps .immediate).1 = ⟨[0, 2], []⟩
  order_deferred : (Graph.orderOf table steps .deferred).1 = ⟨[1], []⟩
  inputs : ∀ r ∈ steps.zip wiring.inputs,
    (r.1.deps ++ [r.1.out]).Perm r.2 ∧ r.2.Pairwise (· ≤ ·) ∧ r.2.eraseReps = r.2
  exact : (List.range 36).map (fun p => (([0, 1, 2].zip wiring.inputs).filter fun r => r.2.contains p).map (·.1)) =
    wiring.exact
  under : (List.range 36).map (fun p =>
    (([0, 1, 2].zip wiring.inputs).filter fun r => r.2.any fun i => (table.chain i).contains p).map (·.1)) = wiring.under
  chains : (List.range 36).map table.chain = wiring.chains
  blades_parse : blades.filterMap (fun t => (Path.parse t).toOption) = blades.map field
  blades_resolve : ((blades.map field).filterMap table.resolve).filterMap table.path? = blades.map field
  blades_sorted : (blades.map field).Pairwise fun p q => p.le q
  blades_apart : Path.dropCovered none (blades.map field) = blades.map field
  blades_ids : (blades.map field).filterMap table.id? = List.range' 3 32
  ids_sorted : (List.range' 3 32).Pairwise (· ≤ ·)

theorem evaluated : Evaluated := by
  constructor <;> decide +kernel

/-- What evaluation says of a first pass with a cache and of the one after it, for which the
first leaves the cache `kept`: nothing fails, and the second does or does not copy `y`. -/
structure Passes (cache kept : PlanCache) (copies : Bool) : Prop where
  first : stopDegrade (swept (choose cache 1 .dirty)).stop ≠ some .deriveFailed
  second : stopDegrade (swept (choose kept 2 .auto)).stop ≠ some .deriveFailed
  copies : copied (swept (choose kept 2 .auto)).run.draft = copies

theorem passes_planned : Passes (.ofGeneration 1) (choose (.ofGeneration 1) 1 .dirty).cache false := by
  constructor <;> decide +kernel

theorem passes_cutOff : Passes (.off (.ofGeneration 1)) (.off (.ofGeneration 1)) true := by
  constructor <;> decide +kernel

theorem ofDeclaration_eq : Outline.ofDeclaration declaration = .ok outline := by
  have hok := evaluated.compiles
  unfold outline
  cases h : Outline.ofDeclaration declaration with
  | error e =>
    rw [h] at hok
    cases hok
  | ok o => rfl

theorem sorted_eq : outline.sorted = outline.drafts :=
  List.mergeSort_of_pairwise evaluated.drafts_sorted

theorem table_eq : outline.table = table := by
  rw [Outline.table, PathTable.ofPaths, sorted_eq, mergeSort_path evaluated.named_perm evaluated.named_sorted,
    evaluated.named_distinct]

theorem steps_eq : Graph.stepsFrom table 0 outline.drafts = steps := by
  refine List.ext_getElem? fun i => ?_
  have hi := congrArg (·[i]?) evaluated.rows
  simp only [List.getElem?_mapIdx] at hi
  rw [Graph.getElem?_stepsFrom, Nat.zero_add, ← hi]
  cases hx : outline.drafts[i]? with
  | none => rfl
  | some x =>
    rw [hx, Option.map_some] at hi
    obtain ⟨hle, hreps⟩ := evaluated.deps_sorted _ (List.mem_of_getElem? hi.symm)
    have hdeps : (x.step table i).deps = x.deps.filterMap table.id? := by
      show (x.deps.filterMap table.id?).mergeSort.eraseReps = x.deps.filterMap table.id?
      rw [mergeSort_nat (List.Perm.refl _) hle, hreps]
    rw [Option.map_some, Option.map_some, ← hdeps]

theorem compile_eq : Graph.compile declaration 1 = .ok graph := by
  unfold Graph.compile
  rw [ofDeclaration_eq]
  simp only [bind, Except.bind, sorted_eq, table_eq, steps_eq, evaluated.acyclic, evaluated.order_all,
    evaluated.order_immediate, evaluated.order_deferred, evaluated.reserved]
  rfl

theorem inputs_eq {s : Step} {l : List PathId} (h : (s, l) ∈ steps.zip wiring.inputs) : s.inputs = l := by
  obtain ⟨hp, hl, hr⟩ := evaluated.inputs _ h
  rw [Step.inputs, mergeSort_nat hp hl, hr]

theorem ofGraph_eq : Wiring.ofGraph graph = wiring := by
  have h₀ : (⟨0, .computed, 0, 1 :: List.range' 3 32, none, .immediate, "a", "fan"⟩ : Step).inputs =
      0 :: 1 :: List.range' 3 32 :=
    inputs_eq (.head _)
  have h₁ : (⟨1, .link, 1, [0], some 0, .deferred, "b", "fan"⟩ : Step).inputs = [0, 1] :=
    inputs_eq (.tail _ (.head _))
  have h₂ : (⟨2, .link, 2, [35], some 35, .immediate, "c", "fan"⟩ : Step).inputs = [2, 35] :=
    inputs_eq (.tail _ (.tail _ (.head _)))
  have hids : ∀ f : List PathId → Bool, (steps.filter fun s => f s.inputs).map (·.id) =
      (([0, 1, 2].zip wiring.inputs).filter fun r => f r.2).map (·.1) := by
    intro f
    simp only [steps, wiring, List.zip_cons_cons, List.zip_nil_right, List.filter_cons, List.filter_nil, h₀, h₁, h₂]
    cases f (0 :: 1 :: List.range' 3 32) <;> cases f [0, 1] <;> cases f [2, 35] <;> rfl
  have hexact : (List.range 36).map graph.exact = wiring.exact := by
    have h : graph.exact = fun p => (([0, 1, 2].zip wiring.inputs).filter fun r => r.2.contains p).map (·.1) :=
      funext fun p => hids fun l => l.contains p
    rw [h, evaluated.exact]
  have hunder : (List.range 36).map graph.under = wiring.under := by
    have h : graph.under = fun p =>
        (([0, 1, 2].zip wiring.inputs).filter fun r => r.2.any fun i => (table.chain i).contains p).map (·.1) :=
      funext fun p => hids fun l => l.any fun i => (table.chain i).contains p
    rw [h, evaluated.under]
  have hinputs : graph.steps.map (·.inputs) = wiring.inputs := by
    simp only [graph, steps, wiring, List.map_cons, List.map_nil, h₀, h₁, h₂]
  have hsize : graph.table.size = 36 := rfl
  have hdepth : graph.table.depth = 1 := rfl
  have hchains : (List.range 36).map graph.table.chain = wiring.chains := evaluated.chains
  simp only [Wiring.ofGraph, hsize, hdepth, hchains, hexact, hunder, hinputs]
  rfl

/-- The roots of both passes are all the blades. -/
theorem roots_eq (n : Nat) : (context n).dirty.resolve table = ⟨List.range' 3 32, none⟩ := by
  have hroots : Path.roots (blades.map field) = blades.map field := by
    rw [Path.roots, mergeSort_path (List.Perm.refl _) evaluated.blades_sorted, evaluated.blades_apart]
  simp only [context, DirtySet.resolve, evaluated.blades_parse, evaluated.blades_resolve, hroots, evaluated.blades_ids]
  rw [mergeSort_nat (List.Perm.refl _) evaluated.ids_sorted]

theorem pass_eq (cache : PlanCache) (seq : Nat) (mode : Policy.Mode)
    (hok : stopDegrade (swept (choose cache seq mode)).stop ≠ some .deriveFailed) :
    (passUnder (fun _ => false) (bound cache) (context seq) (request mode) quiet).executor =
        bound (choose cache seq mode).cache ∧
      (passUnder (fun _ => false) (bound cache) (context seq) (request mode) quiet).context.draft =
        (swept (choose cache seq mode)).run.draft := by
  have hroots : (bound cache).rootsOf (context seq) none = ⟨List.range' 3 32, none⟩ := roots_eq seq
  have hidle : (bound cache).idle (context seq) (request mode) = false := by
    simp only [idle, request, hroots]
    rfl
  have hchoice : (bound cache).choice (context seq) (request mode) = choose cache seq mode := by
    simp only [choice, choose, request, hroots]
    rfl
  have hsweep : sweep (fun _ => false) (bound cache) (context seq) (request mode) = swept (choose cache seq mode) := by
    rw [sweep, hchoice]
    simp only [start, request, hroots]
    rfl
  refine ⟨?_, ?_⟩
  · rw [passUnder_of_due _ hidle, close, hchoice]
    rfl
  · rw [passUnder_sweep hidle (by rw [hsweep]; exact hok), hsweep]

theorem planned : copied (draft (bound (.ofGeneration 1))) = false := by
  rw [draft, Op.run, (pass_eq _ 1 .dirty passes_planned.first).1, (pass_eq _ 2 .auto passes_planned.second).2,
    passes_planned.copies]

theorem cutOff : copied (draft (bound (.off (.ofGeneration 1)))) = true := by
  have hcache : (choose (.off (.ofGeneration 1)) 1 .dirty).cache = .off (.ofGeneration 1) :=
    Pass.decide_of_disabled rfl _ _
  rw [draft, Op.run, (pass_eq _ 1 .dirty passes_cutOff.first).1, hcache, (pass_eq _ 2 .auto passes_cutOff.second).2,
    passes_cutOff.copies]

theorem compiled_eq : (GraphCache.empty.get declaration).map Prod.fst = .ok ⟨⟨graph, wiring⟩, false⟩ := by
  rw [GraphCache.get_eq, compile_eq]
  simp only [Except.map, GraphCache.reply]
  rw [← ofGraph_eq]
  rfl

/-- Bound to what is answered for the declaration and given the same two passes, the
executor with a kept plan leaves `c` alone in the second one, and the one without a cache
is cut off and brings it up to date. -/
theorem hit_beats_the_deadline : ∃ a c, GraphCache.empty.get declaration = .ok (a, c) ∧
    draft (.ofCompiled ⟨"fan", "1"⟩ a.compiled) ≠ draft (uncached (.ofCompiled ⟨"fan", "1"⟩ a.compiled)) := by
  have hget := compiled_eq
  cases h : GraphCache.empty.get declaration with
  | error e =>
    rw [h] at hget
    cases hget
  | ok r =>
    obtain ⟨a, c⟩ := r
    rw [h] at hget
    obtain rfl : a = ⟨⟨graph, wiring⟩, false⟩ := Except.ok.inj hget
    refine ⟨_, c, rfl, fun hsame => ?_⟩
    have hplanned := planned
    have hcut := cutOff
    rw [show bound (.ofGeneration 1) = .ofCompiled ⟨"fan", "1"⟩ ⟨graph, wiring⟩ from rfl, hsame] at hplanned
    rw [show bound (.off (.ofGeneration 1)) = uncached (.ofCompiled ⟨"fan", "1"⟩ ⟨graph, wiring⟩) from rfl, hplanned] at hcut
    cases hcut

end Fan

end Settle
