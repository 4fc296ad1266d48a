/-
  Settle.Transaction — a draft of an instance's state and a record of what was done to it.

  A tracked write records its place as a dirty root and a patch. A replacement of the
  draft records nothing: unless its paths are told afterwards, everything counts as
  dirty.
-/

import Settle.Commit
import Settle.Error

namespace Settle

structure Transaction where
  key : Key
  draft : Value
  writes : List (Location × Value)
  dirty : DirtySet
  patches : List Patch
  /-- The draft was replaced. -/
  replaced : Bool
  /-- It was replaced and no path was told since. -/
  untracked : Bool

namespace Transaction

/-- A transaction on a draft. -/
def start (key : Key) (draft : Value) : Transaction := ⟨key, draft, [], .empty, [], false, false⟩

/-- The value at a path text; none for a text that is no path. -/
def get (t : Transaction) (path : String) : Option Value :=
  match Path.parse path with
  | .ok p => State.read t.draft p
  | .error _ => none

/-- Read a location and the path of what it touches. -/
def place (t : Transaction) (path : String) : Except Error (Location × Path) :=
  let context := s!"transaction write on {t.key.text}"
  match Location.parse path with
  | .error cause => .error (.invalidPath path context cause)
  | .ok l =>
    match l.normalized with
    | .error cause => .error (.invalidPath path context cause)
    | .ok p => .ok (l, p)

/-- Write at a location. A value that counts as the one there records nothing. -/
def set (t : Transaction) (path : String) (v : Value) : Except Error Transaction := do
  let (l, p) ← t.place path
  let prev := State.lookupAt t.draft l
  if prev.any (·.same v) then return t
  return { t with
    draft := (State.writeAt t.draft l v).state
    writes := t.writes ++ [(l, v)]
    dirty := t.dirty.insert p
    patches := t.patches ++ [⟨path, .reducer, prev, some v, none⟩] }

/-- Replace the draft. -/
def update (t : Transaction) (f : Value → Value) : Transaction :=
  { t with draft := f t.draft, replaced := true, untracked := true }

/-- Tell a path that a replacement changed. The wildcard or an empty text names no place,
and a text that is no path cannot be tracked: either makes everything dirty. -/
def record (t : Transaction) (path : String) (reason : PatchReason) : Transaction :=
  let t := { t with untracked := false }
  if path = "" ∨ path = wildcard then { t with dirty := t.dirty.markAll .unknownWrite }
  else
    match Path.parse path with
    | .error _ => { t with dirty := t.dirty.markAll .nonTrackablePatch }
    | .ok p =>
      { t with
        patches := t.patches ++ [⟨path, reason, none, State.read t.draft p, none⟩]
        dirty := t.dirty.insert p }

def markAll (t : Transaction) (reason : DirtyReason) : Transaction := { t with dirty := t.dirty.markAll reason }

/-- The commit of the transaction; none if it did nothing. -/
def commit? (t : Transaction) (priority : Priority) : Option Commit :=
  let dirty := if t.untracked then t.dirty.markAll .customMutation else t.dirty
  if dirty.isEmpty && !t.replaced then none
  else some ⟨0, .transaction, priority,
    { Change.empty with
      replace := if t.replaced then some t.draft else none
      writes := if t.replaced then [] else t.writes
      dirty := dirty
      patches := t.patches }⟩

end Transaction

end Settle
