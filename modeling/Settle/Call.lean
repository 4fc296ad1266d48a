/-
  Settle.Call — what an owner asks of a host, told as data.

  Every call is answered. One that fails leaves the engine as it was.
-/

import Settle.Host

namespace Settle

/-- What an owner can ask for. -/
inductive Call where
  | register (d : Declaration) (id : String) (initial : Value)
  | override (key : Key) (provider : Option Policy.Overrides)
  | link (source : Key) (sourcePath : String) (target : Key) (targetPath : String)
  | set (key : Key) (path : String) (v : Value)
  | transact (key : Key) (priority : Priority) (body : List Edit)
  | read (key : Key) (path : String)
  | flush
  | flushUntilIdle (n : Nat)
  | subscribe (key : Key) (label : String) (target : Key) (acts : List Act)
  | unsubscribe (id : Nat)
  | telemetry
  | watch (key : Key) (action label : String) (target : Key) (acts : List Act)
  | dispatch (key : Key) (action : String) (payload : Value)
  | tryDispatch (key : Key) (action : String) (payload : Value)
  | send (id : Nat) (payload : Value)
  | trySend (id : Nat) (payload : Value)
  | cancel (id : Nat)
  | detach (id : Nat)
  | join (id : Nat)
  | shutdown (id : Nat)
  | advance (ms : Nat)
  | release

/-- What a call answers. -/
inductive Answer where
  | done
  | failed (err : Error)
  | key (key : Key)
  | flag (b : Bool)
  | found (v : Option Value)
  | ended (how : Ending) (replies : List Reply)
  | reports (rs : List TickReport)
  | number (n : Nat)
  | stats (s : WatcherStats)

def Answer.ofExcept {α : Type} (f : α → Answer) : Except Error α → Answer
  | .ok a => f a
  | .error err => .failed err

def Answer.ofRefusal : Option Error → Answer
  | some err => .failed err
  | none => .done

namespace Host

/-- Put what an operation made of the engine in its place; one that failed made nothing. -/
def engineDid {α : Type} (h : Host) (f : α → Answer) : Except Error (α × Engine) → Answer × Host
  | .ok (a, e) => (f a, { h with engine := e })
  | .error err => (.failed err, h)

/-- Do what is asked for. -/
def perform (h : Host) : Call → Answer × Host
  | .register d id initial => h.engineDid .key (h.engine.register d id initial)
  | .override key provider => h.engineDid (fun _ => .done) ((h.engine.override key provider).map ((), ·))
  | .link source sourcePath target targetPath => h.engineDid .flag (h.engine.link source sourcePath target targetPath)
  | .set key path v => h.engineDid (fun _ => .done) ((h.engine.set key path v).map ((), ·))
  | .transact key priority body =>
    let (how, replies, e) := h.engine.transact Engine.flush key priority body
    (.ended how replies, { h with engine := e })
  | .read key path => (.ofExcept .found (h.engine.read key path), h)
  | .flush => let (r, e) := h.engine.flush; (.reports [r], { h with engine := e })
  | .flushUntilIdle n => let (rs, e) := h.engine.flushUntilIdle n; (.reports rs, { h with engine := e })
  | .subscribe key label target acts => h.engineDid .number (h.engine.subscribe key label target acts)
  | .unsubscribe id => let (found, e) := h.engine.unsubscribe id; (.flag found, { h with engine := e })
  | .telemetry => (.done, { h with engine := { h.engine with telemetry := true } })
  | .watch key action label target acts =>
    match h.watch key action label target acts with
    | .ok (id, h) => (.number id, h)
    | .error err => (.failed err, h)
  | .dispatch key action payload => let (r, h) := h.dispatch key action payload; (.ofExcept .number r, h)
  | .tryDispatch key action payload => let (r, h) := h.tryDispatch key action payload; (.ofExcept .number r, h)
  | .send id payload => let (r, h) := h.send id payload; (.ofRefusal r, h)
  | .trySend id payload => let (r, h) := h.trySend id payload; (.ofRefusal r, h)
  | .cancel id => (.done, h.cancel id)
  | .detach id => (.done, h.detach id)
  | .join id => let (s, h) := h.join id; (.stats s, h)
  | .shutdown id => let (s, h) := h.shutdown id; (.stats s, h)
  | .advance ms => (.done, h.advance ms)
  | .release => (.done, h.release)

/-- After each call its answer, and every instance: its state, committed and pending, and
what is queued. -/
def story : List Call → Host → List (Answer × Store)
  | [], _ => []
  | c :: calls, h => let (a, h) := h.perform c; (a, h.engine.store) :: story calls h

/-- The host after the calls. -/
def after (h : Host) (calls : List Call) : Host := calls.foldl (fun h c => (h.perform c).2) h

end Host

end Settle
