/-
  Settle.Engine — registered instances, their links, and the ticks that settle them.

  Work is queued by transactions, links and lanes, and taken up by ticks. Lanes run on a
  clock; an engine without one runs deferred steps in step with each unit. Nothing in
  this module calls back: listeners are called by a flush (`Settle.Engine.Flush`).
-/

import Settle.Tick
import Settle.Transaction
import Settle.Script

namespace Settle

/-- Called with the state of an instance after every tick that changed it. -/
structure Listener where
  id : Nat
  key : Key
  label : String
  /-- The instance its acts are on. -/
  target : Key
  acts : List Act

structure Engine where
  config : Policy.Config
  diagnostics : Diagnostics
  graphs : GraphCache
  store : Store
  links : List Link
  /-- The number of the last tick that was not idle. -/
  tickSeq : Nat
  /-- Instances with an open transaction. -/
  active : List Key
  listeners : List Listener
  /-- Listeners registered so far. -/
  subscriptions : Nat
  /-- Whether sampled ticks that fall short are told. -/
  telemetry : Bool
  /-- The time on the engine's clock, if it has one. -/
  clock : Option Time
  /-- Named derive functions called so far, in order. -/
  calls : List String
  notes : List Note

namespace Engine

/-- An engine. Its diagnostics go to `sink`, and it has a clock if `clocked`. -/
def ofSink (config : Policy.Config) (sink : Sink) (clocked : Bool) : Engine :=
  ⟨config, .ofSink config.reporting sink, .empty, .empty, [], 0, [], [], 0, false,
    if clocked then some 0 else none, [], []⟩

/-- An engine whose diagnostics keep events if `keeps`, and panic otherwise. -/
def ofConfig (config : Policy.Config) (keeps clocked : Bool) : Engine :=
  .ofSink config (if keeps then .memory else .panicking) clocked

def now (e : Engine) : Time := e.clock.getD 0

def emit (e : Engine) (ev : Event) : Engine := { e with diagnostics := e.diagnostics.emit ev }

def note (e : Engine) (n : Note) : Engine := { e with notes := e.notes ++ [n] }

/-- Report that a callback panicked. -/
def reportPanic (e : Engine) (key : Key) (action : String) (message : Option String) : Engine :=
  match message with
  | some m => e.emit (.handlerFailure key.text action m none)
  | none => e.emit (.handlerFailure key.text action s!"{action} panicked" (some "panic payload was not a string"))

/-! ## Instances -/

/-- Queue a commit on an instance; on no instance it is dropped. -/
def enqueue (e : Engine) (key : Key) (c : Commit) : Engine :=
  match e.store.enqueue key c with
  | .ok store => { e with store := store }
  | .error _ => e

/-- Bring the lane of an instance in line with its policies; work a lane gives back is
queued. -/
def syncLane (e : Engine) (key : Key) : Engine :=
  match e.store.find? key with
  | none => e
  | some i =>
    let (flush, i) := i.syncLane e.clock.isSome
    let e := { e with store := e.store.put i }
    match flush with
    | some f => e.enqueue key (i.deferredCommit (.ofFlush f))
    | none => e

/-- Warn, once each, of step paths that a module's shape lacks. -/
def warnShape (e : Engine) (g : Graph) : Engine :=
  let warn (d : Diagnostics) (p : Path) : Diagnostics :=
    d.warnOnce s!"schema:{g.moduleId}:{p.text}" (.schemaMismatch g.moduleId p.text)
  { e with diagnostics := g.shapeWarnings.foldl warn e.diagnostics }

/-- Register an instance of a module. Instances the module already has follow its new
graph. -/
def register (e : Engine) (d : Declaration) (instanceId : String) (initial : Value) : Except Error (Key × Engine) := do
  let key : Key := ⟨d.moduleId, instanceId⟩
  if e.store.contains key then throw (.duplicateInstance key)
  let (answer, graphs) ← e.graphs.get d
  let compiled := answer.compiled
  let e := { e with graphs := graphs }.warnShape compiled.graph
  let isSibling (i : Instance) : Bool := i.key.moduleId = d.moduleId
  let siblings := (e.store.instances.filter isSibling).map (·.key)
  let rebound := e.store.instances.map fun i => if isSibling i then i.rebind compiled else i
  let e := siblings.foldl syncLane { e with store := { e.store with instances := rebound } }
  let policies := Policy.Policies.resolve e.config d.moduleId d.options none
  let e := { e with store := e.store.add (.ofCompiled key compiled d.options policies initial) }
  return (key, e.syncLane key)

/-- Put other overrides over the policies of an instance. -/
def override (e : Engine) (key : Key) (provider : Option Policy.Overrides) : Except Error Engine := do
  let i ← e.store.get key
  let policies := Policy.Policies.resolve e.config key.moduleId i.options provider
  return { e with store := e.store.put { i with policies := policies } }.syncLane key

/-- Queue work that a lane hands back. -/
def acceptDeferred (e : Engine) (key : Key) (f : Lane.Flush) : Engine :=
  match e.store.find? key with
  | none => e
  | some i => e.enqueue key (i.deferredCommit (.ofFlush f))

/-- Copy a path of one instance to a path of another from now on, and its value at once.
Answers false for a link that is there already. -/
def link (e : Engine) (source : Key) (sourcePath : String) (target : Key) (targetPath : String) :
    Except Error (Bool × Engine) := do
  let l ← Link.parse source sourcePath target targetPath
  let value := State.read (← e.store.get source).state l.sourcePath
  let prev := State.read (← e.store.get target).pending l.targetPath
  if e.links.contains l then return (false, e)
  let e := { e with links := e.links ++ [l] }
  match value with
  | none => return (true, e)
  | some v => return (true, if prev.any (·.same v) then e else e.enqueue target (l.commit v prev .normal))

/-- The committed value at a path text. -/
def read (e : Engine) (key : Key) (path : String) : Except Error (Option Value) := do
  e.store.read key (← Error.parsePath path s!"read on {key.text}")

/-- Listen to an instance. Answers the number of the listener. -/
def subscribe (e : Engine) (key : Key) (label : String) (target : Key) (acts : List Act) :
    Except Error (Nat × Engine) := do
  let _ ← e.store.get key
  let id := e.subscriptions + 1
  return (id, { e with subscriptions := id, listeners := e.listeners ++ [⟨id, key, label, target, acts⟩] })

/-- Remove a listener. Answers whether it was there. -/
def unsubscribe (e : Engine) (id : Nat) : Bool × Engine :=
  (e.listeners.any (·.id = id), { e with listeners := e.listeners.filter (·.id ≠ id) })

/-! ## Transactions -/

/-- Open a transaction on everything committed and queued so far. An instance has at most
one open. -/
def openTxn (e : Engine) (key : Key) : Except Error (Transaction × Engine) := do
  let i ← e.store.get key
  if e.active.contains key then throw (.nestedTransaction key)
  return (.start key i.pending, { e with active := key :: e.active })

/-- Close a transaction without a trace. -/
def abandon (e : Engine) (key : Key) : Engine := { e with active := e.active.filter (· ≠ key) }

/-- Close a transaction and queue what it did. -/
def commitTxn (e : Engine) (t : Transaction) (priority : Priority) : Engine :=
  let e := e.abandon t.key
  match t.commit? priority with
  | some c => e.enqueue t.key c
  | none => e

/-- A transaction of one piece. -/
def write (e : Engine) (key : Key) (f : Transaction → Except Error Transaction) : Except Error Engine := do
  let (t, opened) ← e.openTxn key
  return opened.commitTxn (← f t) .normal

/-- Queue a single write. -/
def set (e : Engine) (key : Key) (path : String) (v : Value) : Except Error Engine := e.write key (·.set path v)

/-! ## Ticks -/

/-- Run one tick. Answers its report and the instances it changed with their states. -/
def tick (e : Engine) : TickReport × List (Key × Value) × Engine :=
  let t := Tick.run ⟨e.config.tick, e.links, e.now⟩ e.tickSeq e.store e.diagnostics
  (t.report, t.changed,
    { e with store := t.store, diagnostics := t.diagnostics, tickSeq := t.report.tickSeq, calls := e.calls ++ t.calls })

/-- Whether a report goes to telemetry. -/
def samples (e : Engine) (r : TickReport) : Bool :=
  !r.stable && (e.config.tick.telemetryRate.map fun rate => Digest.sampled r.tickSeq.toUInt64 rate.toFloat).getD false

end Engine

end Settle
