/-
  Settle.Commit — proposed changes to one instance.

  A change replaces the whole state, writes to places of it, or only hands on work: the
  dirty roots of its writes, what a stopped pass left behind, and work of deferred steps.
  Commits wait in the queue of their instance; all that wait there are merged into one
  unit, which the instance applies and converges. A replacement was built on top of all
  that waited before it, so in a merge it supersedes their writes.
-/

import Settle.Lane
import Settle.Pass.Patch

namespace Settle

/-- Urgent work comes first in a tick; the rest when the tick has room. -/
inductive Priority where
  | normal
  | low
  deriving DecidableEq, Repr

namespace Priority

def name : Priority → String
  | .normal => "normal"
  | .low => "low"

/-- The more urgent of two. -/
def least : Priority → Priority → Priority
  | .low, .low => .low
  | _, _ => .normal

/-- Urgent before the rest. -/
def rank : Priority → Nat
  | .normal => 0
  | .low => 1

end Priority

/-- What produced a commit. -/
inductive CommitKind where
  | transaction
  /-- Work the lane hands back. -/
  | deferredFlush
  /-- Work a stopped pass left behind. -/
  | carry
  /-- A value copied from another instance. -/
  | link
  deriving DecidableEq, Repr

def CommitKind.name : CommitKind → String
  | .transaction => "transaction"
  | .deferredFlush => "deferred_flush"
  | .carry => "carry"
  | .link => "link"

/-- Work of deferred steps. -/
structure Deferred where
  dirty : DirtySet
  carried : Option Carried
  evidence : Evidence

namespace Deferred

def empty : Deferred := ⟨.empty, none, .none⟩

def ofFlush (f : Lane.Flush) : Deferred := ⟨f.dirty, none, f.evidence⟩

def merge (a b : Deferred) : Deferred :=
  ⟨a.dirty.union b.dirty, Carried.merge? a.carried b.carried, a.evidence.absorb b.evidence⟩

def merge? : Option Deferred → Option Deferred → Option Deferred
  | a, none => a
  | none, some b => some b
  | some a, some b => some (a.merge b)

def isEmpty (d : Deferred) : Bool := d.dirty.isEmpty && d.carried.isNone

end Deferred

/-- What a commit does. -/
structure Change where
  /-- The whole next state. -/
  replace : Option Value
  /-- Writes, in order, on top of it. -/
  writes : List (Location × Value)
  dirty : DirtySet
  patches : List Patch
  carried : Option Carried
  deferred : Option Deferred

namespace Change

def empty : Change := ⟨none, [], .empty, [], none, none⟩

/-- One change and then another. -/
def followedBy (a b : Change) : Change where
  replace := b.replace <|> a.replace
  writes := if b.replace.isSome then b.writes else a.writes ++ b.writes
  dirty := a.dirty.union b.dirty
  patches := a.patches ++ b.patches
  carried := Carried.merge? a.carried b.carried
  deferred := Deferred.merge? a.deferred b.deferred

/-- The state after the change. -/
def applyTo (c : Change) (state : Value) : Value :=
  c.writes.foldl (fun s w => (State.writeAt s w.1 w.2).state) (c.replace.getD state)

end Change

structure Commit where
  /-- The number under which it was queued; zero for work an instance queues on itself. -/
  seq : Nat
  kind : CommitKind
  priority : Priority
  change : Change

/-- Every commit that waited on an instance, merged. -/
structure WorkUnit where
  priority : Priority
  /-- The kinds of its commits, each once. -/
  kinds : List CommitKind
  change : Change

namespace WorkUnit

def ofCommit (c : Commit) : WorkUnit := ⟨c.priority, [c.kind], c.change⟩

def add (u : WorkUnit) (c : Commit) : WorkUnit where
  priority := u.priority.least c.priority
  kinds := if u.kinds.contains c.kind then u.kinds else u.kinds ++ [c.kind]
  change := u.change.followedBy c.change

/-- The unit of the commits, in their order. -/
def merge? : List Commit → Option WorkUnit
  | [] => none
  | c :: rest => some (rest.foldl add (ofCommit c))

end WorkUnit

end Settle
