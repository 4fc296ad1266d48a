/-
  Settle.Diagnostics — which events are reported, and where they go.

  At the level `off` nothing passes but handler failures. Warnings can be held to the
  first of their key, or to one in a span of time. A sink keeps of an event what it likes;
  where it panics, what it kept stays as it was.
-/

import Settle.Event

namespace Settle

/-- How much a pass tells about itself. -/
inductive Detail where
  | none
  | summary
  | steps
  deriving DecidableEq, Repr

def Detail.name : Detail → String
  | .none => "none"
  | .summary => "summary"
  | .steps => "steps"

/-- Which keys were seen, and when each last passed. -/
structure RateLimiter where
  seen : List String
  last : List (String × Nat)
  deriving DecidableEq, Repr

namespace RateLimiter

def empty : RateLimiter := ⟨[], []⟩

/-- Whether the key is seen for the first time. -/
def first (l : RateLimiter) (key : String) : Bool × RateLimiter :=
  if l.seen.contains key then (false, l) else (true, { l with seen := key :: l.seen })

/-- Whether the key has not passed for a span before `now`; if so it passes now. -/
def allow (l : RateLimiter) (key : String) (now cooldown : Nat) : Bool × RateLimiter :=
  let held := match l.last.lookup key with
    | some at_ => decide (now - at_ < cooldown)
    | none => false
  if held then (false, l) else (true, { l with last := Group.upsert key now l.last })

end RateLimiter

/-- Where events go: what is kept once another one comes, or nothing where it panics. -/
abbrev Sink := List Event → Event → Option (List Event)

namespace Sink

def memory : Sink := fun kept e => some (kept ++ [e])

def panicking : Sink := fun _ _ => none

end Sink

structure Diagnostics where
  reporting : Policy.Reporting
  sink : Sink
  /-- What the sink keeps. -/
  events : List Event
  limiter : RateLimiter

namespace Diagnostics

def ofSink (r : Policy.Reporting) (sink : Sink) : Diagnostics := ⟨r, sink, [], .empty⟩

/-- Diagnostics that keep every event, or whose sink panics on every one. -/
def ofReporting (r : Policy.Reporting) (keeps : Bool) : Diagnostics := .ofSink r (if keeps then .memory else .panicking)

def enabled (d : Diagnostics) : Bool := d.reporting.level != .off

/-- The detail for a transaction. -/
def detailFor (d : Diagnostics) (txnSeq : Nat) : Detail :=
  match d.reporting.level with
  | .off => .none
  | .light => .summary
  | .full => .steps
  | .sampled => if (txnSeq - 1) % max 1 d.reporting.sampleEvery = 0 then .steps else .summary

/-- Report an event if the level lets it through. -/
def emit (d : Diagnostics) (e : Event) : Diagnostics :=
  if e.isFailure || d.enabled then { d with events := (d.sink d.events e).getD d.events } else d

/-- Report an event the first time its key is seen. -/
def warnOnce (d : Diagnostics) (key : String) (e : Event) : Diagnostics :=
  if d.enabled then
    let (isFirst, limiter) := d.limiter.first key
    let d := { d with limiter := limiter }
    if isFirst then d.emit e else d
  else d

/-- Report an event at most once in a span of time per key. -/
def throttled (d : Diagnostics) (key : String) (now cooldown : Nat) (e : Event) : Diagnostics :=
  if d.enabled then
    let (allowed, limiter) := d.limiter.allow key now cooldown
    let d := { d with limiter := limiter }
    if allowed then d.emit e else d
  else d

/-- Take the events out. -/
def take (d : Diagnostics) : List Event × Diagnostics := (d.events, { d with events := [] })

def ofKind (d : Diagnostics) (kind : String) : List Event := d.events.filter (·.kind = kind)

end Diagnostics

end Settle
