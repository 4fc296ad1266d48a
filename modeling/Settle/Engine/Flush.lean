/-
  Settle.Engine.Flush — a tick and the calls that follow it.

  After a tick the listeners of every instance it changed are called, in the order in
  which the instances changed, and then telemetry, if the tick fell short and is in the
  sample. A listener may flush: its ticks run before the next listener is called.
-/

import Settle.Engine.Act

namespace Settle.Engine

/-- Tell telemetry of a tick. -/
def tellTelemetry (e : Engine) (r : TickReport) : Engine :=
  if e.telemetry && e.samples r then e.note (.fellShort r.tickSeq r.stable) else e

/-- How deep flushes of listeners are nested at most; a flush below that calls nobody. -/
def maxNesting : Nat := 4096

/-- Run a tick whose listeners may nest flushes so deep. -/
def flushNested : Nat → Flushing
  | 0, e => let (r, _, e) := e.tick; (r, e)
  | depth + 1, e =>
    let (r, changed, e) := e.tick
    let calls := changed.flatMap fun (key, state) => (e.listeners.filter (·.key = key)).map fun l => (l, state)
    let e := calls.foldl (fun e (l, state) => l.call (flushNested depth) state e) e
    (r, e.tellTelemetry r)

/-- Run a tick and call who listens. -/
def flush : Flushing := flushNested maxNesting

/-- Flush until a tick finds nothing queued, at most so many times. Answers the reports
of the ticks that found something. -/
def flushUntilIdle : Nat → Engine → List TickReport × Engine
  | 0, e => ([], e)
  | n + 1, e =>
    let (r, e) := e.flush
    if r.idle then ([], e) else let (rs, e) := flushUntilIdle n e; (r :: rs, e)

/-- Take a flush of a lane and run a tick. -/
def laneFlushed (e : Engine) (key : Key) (f : Lane.Flush) : Engine :=
  if e.store.contains key then ((e.acceptDeferred key f).flush).2 else e

end Settle.Engine
