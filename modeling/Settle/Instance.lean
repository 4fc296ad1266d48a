/-
  Settle.Instance — a module instance: its committed state and what waits to change it.

  How deferred steps run is decided by the policies:
  - with time slicing off, or with nothing deferred, one pass covers every step;
  - with the lane forced off, the same;
  - with the lane forced synchronous, a second pass follows the immediate one;
  - otherwise they run when the lane flushes, and where there is no clock to run a lane
    on, in a second pass.
-/

import Settle.Executor
import Settle.Commit

namespace Settle

/-- How deferred steps run. -/
inductive DeferredMode where
  /-- One pass over every step. -/
  | inline
  /-- A deferred pass right after the immediate one. -/
  | sync (reason : LaneReason)
  /-- Their roots go to the lane. -/
  | lane
  deriving DecidableEq, Repr

structure Instance where
  key : Key
  /-- The options its module declares. -/
  options : Policy.Overrides
  policies : Policy.Policies
  /-- The committed state. -/
  state : Value
  /-- The committed state with every queued commit applied. -/
  pending : Value
  queue : List Commit
  /-- Units applied so far. -/
  txnSeq : Nat
  executor : Executor
  lane : Option Lane

namespace Instance

def ofCompiled (key : Key) (c : Compiled) (options : Policy.Overrides) (policies : Policy.Policies) (initial : Value) :
    Instance :=
  ⟨key, options, policies, initial, initial, [], 0, .ofCompiled key c, none⟩

def hasQueue (i : Instance) : Bool := !i.queue.isEmpty

/-- The priority of the unit that the queued commits would make. -/
def queuedPriority (i : Instance) : Option Priority :=
  match i.queue with
  | [] => none
  | c :: rest => some (rest.foldl (fun p c => p.least c.priority) c.priority)

/-- The number of the oldest queued commit. -/
def headSeq (i : Instance) : Option Nat := i.queue.head?.map (·.seq)

def lanePending (i : Instance) : Bool := (i.lane.map (·.hasPending)).getD false

/-- Queue a commit. -/
def enqueue (i : Instance) (c : Commit) : Instance :=
  { i with pending := c.change.applyTo i.pending, queue := i.queue ++ [c] }

/-- Take every queued commit out, merged. -/
def takeUnit (i : Instance) : Option WorkUnit × Instance := (WorkUnit.merge? i.queue, { i with queue := [] })

/-- Bring the pending state up to date with the committed one and the queue. -/
def refreshPending (i : Instance) : Instance :=
  { i with pending := i.queue.foldl (fun s c => c.change.applyTo s) i.state }

def rebind (i : Instance) (c : Compiled) : Instance := { i with executor := i.executor.rebind c }

/-! ## Deferred steps -/

/-- Whether the policies slice the steps of this instance at all. -/
def sliced (i : Instance) : Bool :=
  i.policies.convergence.value.timeSlicing.enabled && decide (0 < i.executor.graph.deferredCount)

def override? (i : Instance) : Option Policy.Override := i.policies.lanes.settings.overrideMode

def laneWanted (i : Instance) : Bool := i.sliced && i.override?.isNone

def deferredMode (i : Instance) : DeferredMode :=
  if !i.sliced then .inline
  else
    match i.override? with
    | some .forcedOff => .inline
    | some .forcedSync => .sync .forcedSync
    | none => if i.lane.isSome then .lane else .sync .disabled

def laneSettings (i : Instance) : Lane.Settings :=
  let (debounce, lag) := i.policies.laneTiming
  ⟨debounce, lag, i.policies.lanes.settings.allowCoalesce, i.policies.concurrency.capacity⟩

/-- Why the lane of these policies is stopped. -/
def stopReason (i : Instance) : LaneReason :=
  match i.override? with
  | some .forcedOff => .forcedOff
  | some .forcedSync => .forcedSync
  | none => .disabled

/-- Start, reconfigure or stop the lane as the policies ask. A lane that is stopped
hands out what waited in it. -/
def syncLane (i : Instance) (clocked : Bool) : Option Lane.Flush × Instance :=
  match i.lane, i.laneWanted, clocked with
  | some l, true, _ => (none, { i with lane := some (l.reconfigure i.laneSettings) })
  | none, true, true => (none, { i with lane := some (.ofSettings i.laneSettings) })
  | some l, _, _ => ((l.cancel i.stopReason).1, { i with lane := none })
  | none, _, _ => (none, i)

/-- The commit that hands deferred work back. With lanes active it yields to urgent
work. -/
def deferredCommit (i : Instance) (work : Deferred) : Commit :=
  let active := i.policies.lanes.active
  let work := if !active && i.override?.isNone then { work with evidence := work.evidence.note .disabled } else work
  ⟨0, .deferredFlush, if active then .low else .normal, { Change.empty with deferred := some work }⟩

end Instance

end Settle
