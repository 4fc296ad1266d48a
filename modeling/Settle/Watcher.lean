/-
  Settle.Watcher — a bounded queue of payloads and the handlers that work it off.

  A watcher takes payloads in the order in which they came, one handler each, with at
  most so many handlers in flight. It learns how a handler ended only after it has taken
  the next payload, or when it stops. It stops
  - once it is cancelled: handlers in flight are aborted;
  - once nobody can send to it any more and nothing is queued, or once it takes a payload
    and finds the engine gone: handlers in flight run to their end first.
  A sender that finds the queue full waits or is refused; a stopped watcher is closed.
-/

import Settle.Engine.Flush

namespace Settle

/-- How a handler ended of itself. -/
inductive HandlerEnd where
  | completed
  /-- `downgrade` tells what could not be kept of the failure. -/
  | failed (message : String) (downgrade : Option String)
  deriving DecidableEq, Repr

/-- A handler in flight. -/
structure Handler where
  /-- Its number among the handlers of its watcher. -/
  id : Nat
  payload : Value
  begun : Bool
  /-- The acts before it. -/
  rest : List Act
  /-- When it goes on, if it sleeps. -/
  wakeAt : Option Time

structure WatcherStats where
  dispatched : Nat
  completed : Nat
  failed : Nat
  /-- Handlers aborted. -/
  cancelled : Nat
  deriving DecidableEq, Repr

namespace WatcherStats

def zero : WatcherStats := ⟨0, 0, 0, 0⟩

def toValue (s : WatcherStats) : Value :=
  .record [("dispatched", .ofNat s.dispatched), ("completed", .ofNat s.completed), ("failed", .ofNat s.failed),
    ("cancelled", .ofNat s.cancelled)]

end WatcherStats

inductive WatcherPhase where
  | working
  /-- No payload is taken any more; handlers in flight are waited for. -/
  | stopping
  | stopped
  deriving DecidableEq, Repr

structure Watcher where
  id : Nat
  key : Key
  action : String
  /-- What its handlers are noted under. -/
  label : String
  /-- The instance its handlers act on. -/
  target : Key
  acts : List Act
  /-- The policy it started under. -/
  policy : Policy.Concurrency
  /-- Payloads accepted and not taken. -/
  queue : List Value
  running : List Handler
  /-- Handlers that ended and are not reported yet, in the order in which they ended. -/
  ended : List HandlerEnd
  stats : WatcherStats
  phase : WatcherPhase
  cancelled : Bool
  /-- Whoever started it can send to it. -/
  attached : Bool
  /-- The engine dispatches to it. -/
  registered : Bool

namespace Watcher

def start (id : Nat) (key : Key) (action label : String) (target : Key) (acts : List Act) (policy : Policy.Concurrency) :
    Watcher :=
  ⟨id, key, action, label, target, acts, policy, [], [], [], .zero, .working, false, true, true⟩

def capacity (w : Watcher) : Nat := max 1 w.policy.capacity

def backlog (w : Watcher) : Nat := w.queue.length

def closed (w : Watcher) : Bool := w.phase = .stopped

def full (w : Watcher) : Bool := decide (w.capacity ≤ w.queue.length)

/-- Whether one more handler may be in flight. -/
def free (w : Watcher) : Bool :=
  match w.policy.limit.permits with
  | some n => decide (w.running.length < n)
  | none => true

def hasSender (w : Watcher) : Bool := w.attached || w.registered

/-- Whether it waits for a payload, and not for a handler to end. -/
def waitsForPayload (w : Watcher) : Bool := w.phase = .working && w.free

/-- Put a payload at the end of the queue. -/
def push (w : Watcher) (payload : Value) : Watcher := { w with queue := w.queue ++ [payload] }

/-- Accept a payload, unless the watcher is closed or has no room for it. -/
def offer (w : Watcher) (payload : Value) : Except Error Watcher :=
  if w.closed then .error (.watcherClosed w.key w.action)
  else if w.full then .error (.backpressure w.key w.action)
  else .ok (w.push payload)

/-- The warning a sender gives, if the backlog it finds is worth one. A backlog is never
seen to age: all that happens to a watcher happens in no time of the process's own. -/
def pressure? (w : Watcher) : Option Event :=
  if w.backlog = 0 ∨ (w.backlog < w.policy.pressure.backlogCount ∧ 0 < w.policy.pressure.backlogDurationMs) then none
  else some (.concurrencyPressure w.key.text w.action w.backlog w.policy.limit.permits)

/-! ## Reports -/

def failure? (w : Watcher) : HandlerEnd → Option Event
  | .completed => none
  | .failed message downgrade => some (.handlerFailure w.key.text w.action message downgrade)

def count (s : WatcherStats) : HandlerEnd → WatcherStats
  | .completed => { s with completed := s.completed + 1 }
  | .failed .. => { s with failed := s.failed + 1 }

/-- Count the handlers that ended; the failed ones are events. -/
def report (w : Watcher) : List Event × Watcher :=
  (w.ended.filterMap w.failure?, { w with stats := w.ended.foldl count w.stats, ended := [] })

/-! ## Turns -/

/-- A watcher after a turn. -/
structure Turned where
  watcher : Watcher
  events : List Event
  /-- The numbers of the handlers it started. -/
  started : List Nat

/-- Wait for handlers in flight, and close once there is none. -/
def windUp (w : Watcher) : List Event × Watcher :=
  let (events, w) := w.report
  (events, if w.running.isEmpty then { w with phase := .stopped, queue := [] } else { w with phase := .stopping })

/-- Abort every handler in flight. -/
def abort (w : Watcher) : Watcher :=
  { w with stats := { w.stats with cancelled := w.stats.cancelled + w.running.length }, running := [] }

/-- Start a handler for a payload. -/
def spawn (w : Watcher) (payload : Value) : Watcher :=
  { w with
    running := w.running ++ [⟨w.stats.dispatched, payload, false, w.acts, none⟩]
    stats := { w.stats with dispatched := w.stats.dispatched + 1 } }

/-- Take payloads off the queue while handlers may start. `alive` tells whether the
engine is there. -/
def take (alive : Bool) : List Value → Watcher → Turned
  | [], w =>
    let w := { w with queue := [] }
    if w.free && !w.hasSender then let (events, w) := w.windUp; ⟨w, events, []⟩ else ⟨w, [], []⟩
  | payload :: rest, w =>
    if !w.free then ⟨{ w with queue := payload :: rest }, [], []⟩
    else if !alive then let (events, w) := { w with queue := rest }.windUp; ⟨w, events, []⟩
    else
      let id := w.stats.dispatched
      let (events, w) := (w.spawn payload).report
      let t := take alive rest w
      ⟨t.watcher, events ++ t.events, id :: t.started⟩

/-- One turn. -/
def turn (w : Watcher) (alive : Bool) : Turned :=
  match w.phase with
  | .stopped => ⟨w, [], []⟩
  | .stopping => let (events, w) := w.windUp; ⟨w, events, []⟩
  | .working =>
    if w.cancelled then let (events, w) := w.abort.windUp; ⟨w, events, []⟩ else take alive w.queue w

/-! ## Handlers -/

/-- Whether the end of a handler gives the watcher a turn. -/
def wakesOnEnd (w : Watcher) : Bool := w.phase = .stopping || (w.phase = .working && !w.free)

/-- A handler ended. -/
def handlerEnded (w : Watcher) (id : Nat) (r : HandlerEnd) : Watcher :=
  { w with running := w.running.filter (·.id ≠ id), ended := w.ended ++ [r] }

/-- Put a handler in the place of the one with its number. -/
def putHandler (w : Watcher) (h : Handler) : Watcher :=
  { w with running := w.running.map fun k => if k.id = h.id then h else k }

end Watcher

namespace Handler

/-- Go on until the end or a sleep. Answers how it ended, or when it goes on with what. -/
def go (w : Watcher) (payload : Value) : List Act → Engine → (HandlerEnd ⊕ Time × List Act) × Engine
  | [], e => (.inl .completed, e.note (.finished w.label payload))
  | .sleep ms :: rest, e => if ms = 0 then go w payload rest e else (.inr (e.now + ms, rest), e)
  | a :: rest, e =>
    match a.run Engine.flush w.target payload e with
    | (.well, e) => go w payload rest e
    | (.failed text, e) => (.inl (.failed text none), e)
    | (.panicked (some m), e) => (.inl (.failed m none), e)
    | (.panicked none, e) => (.inl (.failed "handler panicked" (some "panic payload was not a string")), e)

/-- One turn of a handler. -/
def turn (h : Handler) (w : Watcher) (e : Engine) : (HandlerEnd ⊕ Handler) × Engine :=
  let e := if h.begun then e else e.note (.started w.label h.payload)
  match go w h.payload h.rest e with
  | (.inl r, e) => (.inl r, e)
  | (.inr (wakeAt, rest), e) => (.inr { h with begun := true, rest := rest, wakeAt := some wakeAt }, e)

end Handler

end Settle
