/-
  Settle.Host — an engine on a clock, with its watchers.

  Time passes only when it is told to. Watchers and handlers take turns in the order in
  which they became ready; nothing takes a turn between two calls. Advancing the clock
  gives every turn that is due, flushes each lane and wakes each handler at its time, and
  returns when all that is due at the last instant is done. Who waits for room in a full
  queue, or for a watcher to stop, lets turns be taken and then the clock go on to the
  next time at which something is due.

  An engine lives as long as its owner holds it or a handler of any watcher is in flight.
  With it go its lanes, and its way to send to watchers.
-/

import Settle.Watcher

namespace Settle

/-- Who has a turn. -/
inductive Turn where
  | watcher (id : Nat)
  | handler (watcher id : Nat)
  deriving DecidableEq, Repr

structure Host where
  engine : Engine
  /-- The owner holds the engine. -/
  held : Bool
  watchers : List Watcher
  /-- Turns to take, first come first served. -/
  ready : List Turn

namespace Host

def ofEngine (e : Engine) : Host := ⟨e, true, [], []⟩

def now (h : Host) : Time := h.engine.now

/-- Whether the engine lives. -/
def alive (h : Host) : Bool := h.held || h.watchers.any fun w => !w.running.isEmpty

def watcher? (h : Host) (id : Nat) : Option Watcher := h.watchers.find? (·.id = id)

def put (h : Host) (w : Watcher) : Host :=
  { h with watchers := h.watchers.map fun v => if v.id = w.id then w else v }

/-- Put a turn at the end of the line, unless it is there. -/
def wake (h : Host) (t : Turn) : Host := if h.ready.contains t then h else { h with ready := h.ready ++ [t] }

def wakeIf (h : Host) (c : Bool) (t : Turn) : Host := if c then h.wake t else h

/-- Where the engine is gone, cut the watchers off from it. -/
def bury (h : Host) : Host :=
  if h.alive then h
  else
    let cut := { h with watchers := h.watchers.map fun w => { w with registered := false } }
    h.watchers.foldl (fun h w => h.wakeIf (w.registered && !w.attached && w.waitsForPayload) (.watcher w.id)) cut

/-! ## Turns -/

def turnWatcher (h : Host) (w : Watcher) : Host :=
  let t := w.turn h.alive
  let e := t.events.foldl Engine.emit h.engine
  let h := { h.put t.watcher with engine := e }
  (t.started.foldl (fun (h : Host) id => h.wake (.handler w.id id)) h).bury

def turnHandler (h : Host) (w : Watcher) (k : Handler) : Host :=
  match k.turn w h.engine with
  | (.inr k, e) => { h.put (w.putHandler k) with engine := e }
  | (.inl r, e) => ({ h.put (w.handlerEnded k.id r) with engine := e }.bury).wakeIf w.wakesOnEnd (.watcher w.id)

/-- Take a turn; one that is no more to be taken is passed over. -/
def take (h : Host) : Turn → Host
  | .watcher id =>
    match h.watcher? id with
    | some w => h.turnWatcher w
    | none => h
  | .handler wid id =>
    match h.watcher? wid with
    | none => h
    | some w =>
      match w.running.find? (·.id = id) with
      | some k => h.turnHandler w k
      | none => h

/-- Take turns until none is left, at most so many. -/
def takeTurns : Nat → Host → Host
  | 0, h => h
  | n + 1, h =>
    match h.ready with
    | [] => h
    | t :: rest => takeTurns n ({ h with ready := rest }.take t)

/-- A bound on the turns that can be taken while the clock stands: those in line, one for
each handler in flight or to be started, one for the end of each, one for each watcher. -/
def turnBound (h : Host) : Nat :=
  let handlers := h.watchers.foldl (fun n w => n + w.queue.length + w.running.length) 0
  h.ready.length + h.watchers.length + 2 * handlers + 1

/-- Take every turn that can be taken now. -/
def settle (h : Host) : Host := takeTurns h.turnBound h

/-! ## The clock -/

/-- Put the clock to a time; an engine without one stays without. -/
def setClock (h : Host) (t : Time) : Host :=
  { h with engine := { h.engine with clock := h.engine.clock.map fun _ => t } }

/-- Times at which lanes and sleeping handlers are due. -/
def dueTimes (h : Host) : List Time :=
  (if h.alive then h.engine.store.instances.filterMap fun i => i.lane.bind (·.dueAt) else [])
    ++ (h.watchers.flatMap (·.running)).filterMap (·.wakeAt)

/-- The next time at which something is due, not in the past. -/
def nextDue (h : Host) : Option Time := (h.dueTimes.min?).map (max h.now)

/-- Flush the lane of an instance if it is due. -/
def flushLane (e : Engine) (key : Key) : Engine :=
  match e.store.find? key with
  | none => e
  | some i =>
    match i.lane with
    | none => e
    | some l =>
      if l.dueAt.any (decide <| · ≤ e.now) then
        let (flush, l) := l.fire
        let e := { e with store := e.store.put { i with lane := some l } }
        match flush with
        | some f => e.laneFlushed key f
        | none => e
      else e

/-- Wake a sleeping handler whose time has come. -/
def wakeHandler (h : Host) (wid : Nat) (k : Handler) : Host :=
  if k.wakeAt.any (decide <| · ≤ h.now) then
    match h.watcher? wid with
    | some w => (h.put (w.putHandler { k with wakeAt := none })).wake (.handler wid k.id)
    | none => h
  else h

/-- Flush every lane and wake every handler that is due now. -/
def fireDue (h : Host) : Host :=
  let keys := if h.alive then h.engine.store.instances.map (·.key) else []
  let h := { h with engine := keys.foldl flushLane h.engine }
  h.watchers.foldl (fun h w => w.running.foldl (fun h k => h.wakeHandler w.id k) h) h

/-- Instants at which something is due that one call passes at most. -/
def maxInstants : Nat := 100000

def advanceWithin (target : Time) : Nat → Host → Host
  | 0, h => h.setClock target
  | n + 1, h =>
    let h := h.settle
    match h.nextDue with
    | none => h.setClock target
    | some t => if t ≤ target then advanceWithin target n (h.setClock t).fireDue else h.setClock target

/-- Let so much time pass. -/
def advance (h : Host) (ms : Nat) : Host := advanceWithin (h.now + ms) maxInstants h

def awaitWithin (done : Host → Bool) : Nat → Host → Host
  | 0, h => h
  | n + 1, h =>
    let h := h.settle
    if done h then h
    else
      match h.nextDue with
      | none => h
      | some t => awaitWithin done n (h.setClock t).fireDue

/-- Wait for something; without it nothing happens. -/
def await (h : Host) (done : Host → Bool) : Host := if done h then h else awaitWithin done maxInstants h

/-! ## Watchers -/

/-- Start a watcher for an action of an instance. Answers its number. -/
def watch (h : Host) (key : Key) (action label : String) (target : Key) (acts : List Act) :
    Except Error (Nat × Host) := do
  let i ← h.engine.store.get key
  if h.engine.clock.isNone then throw (.noClock action)
  let id := h.watchers.length
  let w := Watcher.start id key action label target acts i.policies.concurrency
  return (id, { h with watchers := h.watchers ++ [w] }.wake (.watcher id))

/-- Give up the way to send to a watcher. -/
def detach (h : Host) (id : Nat) : Host :=
  match h.watcher? id with
  | none => h
  | some w =>
    (h.put { w with attached := false }).wakeIf (w.attached && !w.registered && w.waitsForPayload) (.watcher id)

/-- Warn of the backlog a sender finds. -/
def warnPressure (h : Host) (w : Watcher) : Host :=
  match w.pressure? with
  | none => h
  | some ev =>
    let d := h.engine.diagnostics.throttled s!"pressure:{w.key.text}:{w.action}" 0 w.policy.warningCooldownMs ev
    { h with engine := { h.engine with diagnostics := d } }

/-- Put a payload into the queue of a watcher that accepts it. -/
def deliver (h : Host) (w : Watcher) (payload : Value) : Option Error × Host :=
  match w.offer payload with
  | .error err => (some err, h)
  | .ok v => (none, (h.put v).wakeIf w.waitsForPayload (.watcher w.id))

/-- Send without waiting. -/
def trySend (h : Host) (id : Nat) (payload : Value) : Option Error × Host :=
  match h.watcher? id with
  | none => (none, h)
  | some w => (h.warnPressure w).deliver w payload

/-- Whether a sender to this watcher need not wait. -/
def accepts (id : Nat) (h : Host) : Bool := ((h.watcher? id).map fun w => w.closed || !w.full).getD true

/-- Send, waiting while the queue is full. Where nothing is left to wait for, the payload
is refused. -/
def send (h : Host) (id : Nat) (payload : Value) : Option Error × Host :=
  match h.watcher? id with
  | none => (none, h)
  | some w =>
    let h := (h.warnPressure w).await (accepts id)
    match h.watcher? id with
    | none => (none, h)
    | some w => h.deliver w payload

/-- The watchers of an action that the engine reaches. -/
def reached (h : Host) (key : Key) (action : String) : List Nat :=
  (h.watchers.filter fun w => w.registered && w.key = key && w.action = action && !w.closed).map (·.id)

/-- Send to one watcher after the other, until one of them fails. -/
def sendAll (one : Host → Nat → Option Error × Host) : List Nat → Host → Option Error × Host
  | [], h => (none, h)
  | id :: rest, h =>
    match one h id with
    | (none, h) => sendAll one rest h
    | (some err, h) => (some err, h)

/-- Send a payload to every watcher of an action. Answers how many there are. -/
def dispatchBy (send : Host → Nat → Value → Option Error × Host) (h : Host) (key : Key) (action : String)
    (payload : Value) : Except Error Nat × Host :=
  match h.engine.store.get key with
  | .error err => (.error err, h)
  | .ok _ =>
    let ids := h.reached key action
    match sendAll (fun h id => send h id payload) ids h with
    | (none, h) => (.ok ids.length, h)
    | (some err, h) => (.error err, h)

def dispatch (h : Host) (key : Key) (action : String) (payload : Value) : Except Error Nat × Host :=
  dispatchBy send h key action payload

def tryDispatch (h : Host) (key : Key) (action : String) (payload : Value) : Except Error Nat × Host :=
  dispatchBy trySend h key action payload

/-- Interrupt a watcher. -/
def cancel (h : Host) (id : Nat) : Host :=
  match h.watcher? id with
  | none => h
  | some w => (h.put { w with cancelled := true }).wakeIf (w.phase = .working && !w.cancelled) (.watcher id)

/-- Detach from a watcher and wait until it has stopped. -/
def join (h : Host) (id : Nat) : WatcherStats × Host :=
  let h := (h.detach id).await fun h => ((h.watcher? id).map (·.closed)).getD true
  (((h.watcher? id).map (·.stats)).getD .zero, h)

def shutdown (h : Host) (id : Nat) : WatcherStats × Host := (h.cancel id).join id

/-- The owner lets go of the engine. -/
def release (h : Host) : Host := { h with held := false }.bury

end Host

end Settle
