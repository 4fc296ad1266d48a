/-
  Settle.Executor — passes over the derived fields of one instance.

  A pass takes the dirty roots of its context and the work an earlier pass left behind,
  chooses between every step and a plan, and sweeps. At a cap the writes stay and the
  rest is handed back; at a derive failure the state and the patches are those from
  before the pass. What diagnostics report has no part in any of this.
-/

import Settle.Pass.Sweep
import Settle.Pass.Decide
import Settle.Diagnostics
import Settle.Graph.Cache
import Settle.Key

namespace Settle

structure Executor where
  key : Key
  graph : Graph
  wiring : Wiring
  cache : PlanCache

namespace Executor

def ofCompiled (key : Key) (c : Compiled) : Executor :=
  ⟨key, c.graph, c.wiring, .ofGeneration c.graph.generation⟩

/-- Follow a new compilation; plans of another generation go. -/
def rebind (e : Executor) (c : Compiled) : Executor :=
  { e with graph := c.graph, wiring := c.wiring, cache := e.cache.syncGeneration c.graph.generation }

/-- Whether a root of the set can move a step of the scope. -/
def affects (e : Executor) (scope : Scope) (d : DirtySet) : Bool :=
  if e.wiring.scopeSize scope = 0 ∨ d.isEmpty then false
  else
    let r := d.resolve e.graph.table
    r.all.isSome || r.ids.any (e.wiring.affectsScope scope)

/-- What a pass is asked for besides its context. -/
structure Request where
  scope : Scope
  config : Policy.Convergence
  /-- Work an earlier pass left behind. -/
  carried : Option Carried

structure Outcome where
  /-- Fields written, in order. -/
  changed : List Path
  carried : Option Carried
  summary : Summary

def Outcome.degrade (o : Outcome) : Option Degrade := o.summary.degrade

/-- Everything after a pass. -/
structure Passed where
  executor : Executor
  context : Context
  diagnostics : Diagnostics
  outcome : Outcome
  /-- Named derive functions called, in order. -/
  calls : List String

/-- The steps of the scope that carried work names. -/
def forcedSteps (e : Executor) (scope : Scope) (carried : Option Carried) : List StepId :=
  (((carried.map (·.forcedOuts)).getD []).filterMap e.graph.table.id?).filterMap e.graph.stepFor?
    |>.filter (e.wiring.inScope scope)

/-- The dirty set of a pass: its context's, and the roots of carried work. -/
def dirtyOf (ctx : Context) (carried : Option Carried) : DirtySet :=
  ((carried.map (·.dirtyRoots)).getD []).foldl (fun d p => d.insert p) ctx.dirty

def pathsOf (e : Executor) (ids : List PathId) : List Path := ids.filterMap e.graph.table.path?

/-- The warning for a derive function that read other paths than it declares. -/
def warnReads (e : Executor) (d : Diagnostics) (i : StepId) (reads : List Path) : Diagnostics :=
  match e.graph.step? i with
  | none => d
  | some s =>
    match DepsDiff.between (e.pathsOf s.deps) reads with
    | none => d
    | some diff => d.warnOnce s!"deps:{e.key.text}:{s.label}" (.depsMismatch e.key.text s.label diff)

/-- What a stopped sweep leaves behind, if anything. -/
def leftBehind (e : Executor) (s : Pass.Swept) : Option Carried :=
  match s.stop with
  | some (.cap _ rest) =>
    let due := rest.filter fun i => s.unconditional || s.run.marks.touchesStep e.wiring i
    let work : Carried := ⟨e.pathsOf s.run.again, e.pathsOf (due.map e.wiring.out)⟩
    if work.isEmpty then none else some work
  | _ => none

def stopDegrade : Option Pass.Stop → Option Degrade
  | none => none
  | some (.cap reason _) => some reason
  | some (.failed ..) => some .deriveFailed

/-- The roots of a pass, told by ids. -/
def rootsOf (e : Executor) (ctx : Context) (carried : Option Carried) : DirtyIds :=
  (dirtyOf ctx carried).resolve e.graph.table

/-- Nothing of the scope is dirty, and no work is named. -/
def idle (e : Executor) (ctx : Context) (req : Request) : Bool :=
  e.wiring.scopeSize req.scope = 0
    || ((e.rootsOf ctx req.carried).isEmpty && (e.forcedSteps req.scope req.carried).isEmpty)

/-- How a pass will run. -/
def choice (e : Executor) (ctx : Context) (req : Request) : Pass.Choice :=
  Pass.decide e.wiring e.cache ctx.txnSeq req.scope req.config (e.rootsOf ctx req.carried)
    (e.forcedSteps req.scope req.carried)

/-- What does not change during the sweep of a pass. -/
def frame (late : Nat → Bool) (e : Executor) (req : Request) : Pass.Frame :=
  ⟨e.graph, e.wiring, req.scope, req.config.stepCapFor (e.wiring.scopeSize req.scope), late, true⟩

/-- Where the sweep of a pass begins: roots and the fields of named steps are changed. -/
def start (e : Executor) (ctx : Context) (req : Request) : Pass.Run :=
  let changed := (e.rootsOf ctx req.carried).ids ++ (e.forcedSteps req.scope req.carried).map e.wiring.out
  ⟨ctx.draft, [], changed.foldl (Marks.mark e.wiring) (.empty e.wiring), [], 0, [], [], []⟩

/-- The sweep of a pass that is not idle, with what derive functions read. -/
def sweep (late : Nat → Bool) (e : Executor) (ctx : Context) (req : Request) : Pass.Swept :=
  let choice := e.choice ctx req
  Pass.rounds (frame late e req) (choice.executed = .full) choice.steps (e.start ctx req) 1

/-- The sweep without it. -/
def plainSweep (late : Nat → Bool) (e : Executor) (ctx : Context) (req : Request) : Pass.Swept :=
  let choice := e.choice ctx req
  Pass.rounds { frame late e req with traced := false } (choice.executed = .full) choice.steps (e.start ctx req) 1

/-- The summary of a pass that has run nothing. -/
def blank (e : Executor) (ctx : Context) (req : Request) (d : Diagnostics) : Summary :=
  { module := e.key.text, txnSeq := ctx.txnSeq, scope := req.scope, requested := req.config.mode, executed := .noop
    reasons := if req.carried.isSome then [.carried] else []
    dirty := .of e.graph.table d.reporting.topK (e.rootsOf ctx req.carried)
    stepCount := e.wiring.scopeSize req.scope, planLen := 0
    executedSteps := 0, changedSteps := 0, rounds := 0, degrade := none, error := none, cache := none, topSteps := 0 }

/-- Report a pass, unless its detail is none. -/
def tell (detail : Detail) (s : Summary) (d : Diagnostics) : Diagnostics :=
  if detail = .none then d else d.emit (.pass s)

/-- A pass that is idle. -/
def stay (e : Executor) (ctx : Context) (req : Request) (d : Diagnostics) : Passed :=
  let base := e.blank ctx req d
  ⟨e, ctx, tell (d.detailFor ctx.txnSeq) base d, ⟨[], none, base⟩, []⟩

/-- A pass that is not, with its sweep done. -/
def close (e : Executor) (ctx : Context) (req : Request) (d : Diagnostics) (swept : Pass.Swept) : Passed :=
  let detail := d.detailFor ctx.txnSeq
  let base := e.blank ctx req d
  let choice := e.choice ctx req
  let run := swept.run
  let fault := match swept.stop with
    | some (.failed i fault) => some (i, fault)
    | _ => none
  let d := if detail = .steps then run.reads.foldl (fun d r => e.warnReads d r.1 r.2) d else d
  let changed := if fault.isSome then [] else run.changed
  let ranThrough := if fault.isSome then run.executed - 1 else run.executed
  let summary : Summary :=
    { base with
      executed := choice.executed
      reasons := base.reasons ++ choice.reasons
      planLen := choice.steps.length
      executedSteps := run.executed
      changedSteps := changed.length
      rounds := swept.rounds
      degrade := stopDegrade swept.stop
      error := fault.map fun (i, f) => s!"{e.graph.label i}: {f.message}"
      cache := choice.stats
      topSteps := if detail = .steps then min d.reporting.topK ranThrough else 0 }
  let after : Context :=
    if fault.isSome then ctx else { ctx with draft := run.draft, patches := ctx.patches ++ run.patches }
  ⟨{ e with cache := choice.cache }, after, tell detail summary d,
    ⟨e.pathsOf changed, e.leftBehind swept, summary⟩, run.calls⟩

/-- Run one pass, told when its time budget is seen to have passed. What derive functions
read is traced where the detail is that of steps. -/
def passUnder (late : Nat → Bool) (e : Executor) (ctx : Context) (req : Request) (d : Diagnostics) : Passed :=
  if e.idle ctx req then e.stay ctx req d
  else
    let traced := d.detailFor ctx.txnSeq = .steps
    e.close ctx req d (if traced then e.sweep late ctx req else e.plainSweep late ctx req)

/-- Run one pass. A time budget of nothing has passed at the first look, any other never. -/
def pass (e : Executor) (ctx : Context) (req : Request) (d : Diagnostics) : Passed :=
  e.passUnder (fun _ => req.config.budgetMs = 0) ctx req d

end Executor

end Settle
