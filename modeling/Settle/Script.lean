/-
  Settle.Script — what callers have the engine do for them, told as data.

  The body of a transaction is a list of edits; a listener or a handler is a list of
  acts. Either may come back to the engine: an edit opens another transaction, either
  runs a tick. What they did can be read off the replies of a body and off the notes.
-/

import Settle.Report
import Settle.Error

namespace Settle

/-- One edit of a transaction's body. -/
inductive Edit where
  /-- Write; a failure ends the body. -/
  | set (path : String) (v : Value)
  /-- Write and reply how it went. -/
  | trySet (path : String) (v : Value)
  /-- Reply the value at a path. -/
  | get (path : String)
  /-- Reply the draft. -/
  | state
  /-- Reply the dirty set. -/
  | dirty
  /-- Replace the draft by itself with these writes made. -/
  | update (writes : List (Location × Value))
  | replace (v : Value)
  /-- Replace the draft by itself without a top-level field. -/
  | remove (field : String)
  | record (path : String) (reason : PatchReason)
  | markAll (reason : DirtyReason)
  /-- Run a tick and reply its report. -/
  | flush
  /-- Give up without an error of the engine's. -/
  | panic (message : String)
  /-- Run another transaction and reply how it went. -/
  | nested (key : Key) (priority : Priority) (body : List Edit)

/-- What a body was told. -/
inductive Reply where
  | found (v : Option Value)
  | state (v : Value)
  | dirty (d : DirtySet)
  | flushed (r : TickReport)
  | went (e : Option Error)

/-- How a body ended. -/
inductive Ending where
  | done
  | failed (e : Error)
  | panicked (message : String)
  deriving DecidableEq

/-- One act of a listener or a handler. -/
inductive Act where
  | set (path : String) (v : Value)
  /-- Write the payload. -/
  | setPayload (path : String)
  /-- Add the payload to an integer field. -/
  | addPayload (path : String)
  | flush
  | fail (text : String)
  /-- Panic, with a text or without. -/
  | panic (message : Option String)
  /-- Wait on the clock; a listener never does. -/
  | sleep (ms : Nat)

/-- How an act went. -/
inductive Went where
  | well
  | failed (text : String)
  | panicked (message : Option String)
  deriving DecidableEq

/-- What callbacks leave behind, in order. -/
inductive Note where
  /-- A listener was called. -/
  | told (label : String) (key : Key) (state : Value)
  /-- An act of a listener failed. -/
  | failed (label text : String)
  /-- A handler began. -/
  | started (label : String) (payload : Value)
  /-- A handler came to its end. -/
  | finished (label : String) (payload : Value)
  /-- A tick that fell short was told. -/
  | fellShort (tickSeq : Nat) (stable : Bool)

end Settle
