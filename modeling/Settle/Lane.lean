/-
  Settle.Lane — a debounced lane for deferred steps.

  Signals put dirty roots into one pending batch. A batch falls due once no signal has
  come for the debounce window, or once its oldest signal reaches the staleness bound.
  - A lane that coalesces merges a signal into the batch; one that does not hands the
    batch out and starts another.
  - Whoever cancels a wait, or signals over it, is handed the batch and has to apply it.
    No signal is dropped.
  - New settings apply to the batch that waits: its times stand, its deadline moves.
-/

import Settle.Dirty
import Settle.Event

namespace Settle

/-- Times in milliseconds of the engine's clock. -/
abbrev Time := Nat

namespace Lane

structure Settings where
  debounceMs : Nat
  maxLagMs : Nat
  coalesce : Bool
  /-- Roots a batch may hold; with more of them everything is dirty. -/
  capacity : Nat
  deriving DecidableEq, Repr

/-- Signals that wait. -/
structure Batch where
  dirty : DirtySet
  firstAt : Time
  lastAt : Time
  evidence : Evidence

/-- A batch handed out. -/
structure Flush where
  dirty : DirtySet
  evidence : Evidence

namespace Batch

/-- The batch of one signal. -/
def ofSignal (now : Time) (d : DirtySet) : Batch := ⟨d, now, now, ⟨1, 0, 0, []⟩⟩

/-- When the window after the last signal closes. -/
def windowEnd (b : Batch) (s : Settings) : Time := b.lastAt + s.debounceMs

/-- When the first signal is stale. -/
def staleAt (b : Batch) (s : Settings) : Time := b.firstAt + s.maxLagMs

def deadline (b : Batch) (s : Settings) : Time := min (b.windowEnd s) (b.staleAt s)

/-- Merge a later signal. -/
def merge (b : Batch) (now : Time) (d : DirtySet) : Batch :=
  { b with
    dirty := b.dirty.union d
    lastAt := now
    evidence := { b.evidence with signals := b.evidence.signals + 1, coalesced := b.evidence.coalesced + 1 }.note
      .coalesced }

/-- Fall back to everything when the batch holds more roots than the lane keeps. -/
def bound (b : Batch) (capacity : Nat) : Batch :=
  if b.dirty.size > capacity then { b with dirty := b.dirty.markAll .fallbackPolicy } else b

/-- The batch taken out of an interrupted wait. -/
def interrupted (b : Batch) : Flush :=
  ⟨b.dirty, { b.evidence with canceled := b.evidence.canceled + 1 }.note .canceled⟩

/-- The batch at its deadline. -/
def flushed (b : Batch) (s : Settings) : Flush :=
  ⟨b.dirty, if b.staleAt s < b.windowEnd s then b.evidence.note .maxLagForced else b.evidence⟩

end Batch

end Lane

structure Lane where
  settings : Lane.Settings
  pending : Option Lane.Batch

namespace Lane

def ofSettings (s : Settings) : Lane := ⟨s, none⟩

def hasPending (l : Lane) : Bool := l.pending.isSome

/-- Put roots into the lane. Answers the batch that had to make way. -/
def signal (l : Lane) (now : Time) (d : DirtySet) : Option Flush × Lane :=
  match l.pending, l.settings.coalesce with
  | some b, true => (none, { l with pending := some ((b.merge now d).bound l.settings.capacity) })
  | old, _ => (old.map Batch.interrupted, { l with pending := some ((Batch.ofSignal now d).bound l.settings.capacity) })

/-- Take the batch out for a reason of the caller's. -/
def cancel (l : Lane) (reason : LaneReason) : Option Flush × Lane :=
  (l.pending.map fun b =>
    let f := b.interrupted
    { f with evidence := f.evidence.note reason },
   { l with pending := none })

def reconfigure (l : Lane) (s : Settings) : Lane := { l with settings := s }

/-- When the batch falls due. -/
def dueAt (l : Lane) : Option Time := l.pending.map (·.deadline l.settings)

/-- Hand the batch out at its deadline. -/
def fire (l : Lane) : Option Flush × Lane := (l.pending.map (·.flushed l.settings), { l with pending := none })

/-- Let the clock go from one time to another, the second no earlier: the batch, if it
falls due on the way, and the time at which it is handed out. A deadline already past is
met at once. -/
def advance (l : Lane) (start stop : Time) : Option (Time × Flush) × Lane :=
  match l.dueAt with
  | none => (none, l)
  | some due =>
    let at_ := max due start
    if at_ ≤ stop then (l.fire.1.map fun f => (at_, f), l.fire.2) else (none, l)

end Lane

end Settle
