/-
  Settle.Engine.Act — doing what scripts say.

  A script may run ticks, and a tick calls listeners, which are scripts again. So what a
  script does is told relative to `flush`, the way a tick is run from where it stands.

  A body edits its own draft; the engine sees none of it until the body is done. A body
  that fails or panics leaves the engine as the ticks and transactions it ran left it.
-/

import Settle.Engine
import Settle.Formula

namespace Settle

/-- How a tick is run from inside a script. -/
abbrev Flushing := Engine → TickReport × Engine

namespace Act

/-- The transaction that adds a payload to an integer field. -/
def addTo (path : String) (by_ : Int) (t : Transaction) : Except Error Transaction :=
  t.set path (.int (Formula.wrap (Formula.intOf ((t.get path).getD .null) + by_)))

def ofWrite (e : Engine) : Except Error Engine → Went × Engine
  | .ok next => (.well, next)
  | .error err => (.failed err.message, e)

/-- Do one act on an instance. -/
def run (flush : Flushing) (target : Key) (payload : Value) (e : Engine) : Act → Went × Engine
  | .set path v => ofWrite e (e.set target path v)
  | .setPayload path => ofWrite e (e.set target path payload)
  | .addPayload path =>
    match payload.asInt64? with
    | none => (.failed s!"not a number: {payload.text}", e)
    | some by_ => ofWrite e (e.write target (addTo path by_))
  | .flush => (.well, (flush e).2)
  | .fail text => (.failed text, e)
  | .panic message => (.panicked message, e)
  | .sleep _ => (.well, e)

end Act

namespace Listener

/-- The acts of a listener, one after the other. A failing act is noted, a panic ends
them and is reported. -/
def follow (flush : Flushing) (l : Listener) (payload : Value) : List Act → Engine → Engine
  | [], e => e
  | a :: rest, e =>
    match a.run flush l.target payload e with
    | (.well, e) => follow flush l payload rest e
    | (.failed text, e) => follow flush l payload rest (e.note (.failed l.label text))
    | (.panicked message, e) => e.reportPanic l.key "listener" message

/-- Call a listener. -/
def call (flush : Flushing) (l : Listener) (state : Value) (e : Engine) : Engine :=
  l.follow flush state l.acts (e.note (.told l.label l.key state))

end Listener

/-- A body under way. -/
structure Transaction.Running where
  engine : Engine
  txn : Transaction
  replies : List Reply
  /-- How it ended, once an edit ended it. -/
  ending : Ending

namespace Transaction.Running

def reply (b : Running) (r : Reply) : Running := { b with replies := b.replies ++ [r] }

/-- Make a write, or tell why not. -/
def write (b : Running) (path : String) (v : Value) : Option Error × Running :=
  match b.txn.set path v with
  | .ok t => (none, { b with txn := t })
  | .error err => (some err, b)

/-- Close the transaction of a body as its ending says. -/
def close (b : Running) (priority : Priority) : Engine :=
  match b.ending with
  | .done => b.engine.commitTxn b.txn priority
  | _ => b.engine.abandon b.txn.key

/-- Go on after a body inside this one. Its error is a reply; its panic goes on. -/
def resume (b inner : Running) (priority : Priority) : Running :=
  let b := { b with engine := inner.close priority, replies := inner.replies }
  match inner.ending with
  | .done => b.reply (.went none)
  | .failed err => b.reply (.went (some err))
  | .panicked m => { b with ending := .panicked m }

def fields : Value → Fields
  | .obj fs => fs
  | _ => []

/-- A value without one of its top-level fields; no object is left as it is. -/
def without (field : String) : Value → Value
  | .obj fs => .obj (Fields.erase field fs)
  | v => v

mutual
/-- Make one edit. -/
def edit (flush : Flushing) (b : Running) : Edit → Running
  | .set path v =>
    match b.write path v with
    | (none, b) => b
    | (some err, b) => { b with ending := .failed err }
  | .trySet path v => let (r, b) := b.write path v; b.reply (.went r)
  | .get path => b.reply (.found (b.txn.get path))
  | .state => b.reply (.state b.txn.draft)
  | .dirty => b.reply (.dirty b.txn.dirty)
  | .update writes =>
    let write (s : Value) (w : Location × Value) : Value := (State.writeAt s w.1 w.2).state
    { b with txn := b.txn.update fun s => writes.foldl write s }
  | .replace v => { b with txn := b.txn.update fun _ => v }
  | .remove field => { b with txn := b.txn.update (without field) }
  | .record path reason => { b with txn := b.txn.record path reason }
  | .markAll reason => { b with txn := b.txn.markAll reason }
  | .flush => let (r, e) := flush b.engine; { b with engine := e }.reply (.flushed r)
  | .panic m => { b with ending := .panicked m }
  | .nested key priority body =>
    match b.engine.openTxn key with
    | .error err => b.reply (.went (some err))
    | .ok (t, e) => b.resume (edits flush ⟨e, t, b.replies, .done⟩ body) priority
/-- Make edits until one ends the body. -/
def edits (flush : Flushing) (b : Running) : List Edit → Running
  | [] => b
  | x :: rest =>
    let b := edit flush b x
    match b.ending with
    | .done => edits flush b rest
    | _ => b
end

end Transaction.Running

namespace Engine

/-- Run a transaction: how it ended, what it was told, and the engine after it. -/
def transact (flush : Flushing) (e : Engine) (key : Key) (priority : Priority) (body : List Edit) :
    Ending × List Reply × Engine :=
  match e.openTxn key with
  | .error err => (.failed err, [], e)
  | .ok (t, opened) =>
    let b := Transaction.Running.edits flush ⟨opened, t, [], .done⟩ body
    (b.ending, b.replies, b.close priority)

end Engine

end Settle
