/-
  Settle.Dirty — what a mutation may have touched.

  A dirty set is a list of roots, sorted and none covering another, or everything at
  once, for a reason. Everything stays everything: a root put into it changes nothing
  and the first reason stands.
-/

import Settle.Digest
import Settle.Graph.PathTable
import Settle.Value.Record

namespace Settle

/-- Why a mutation could not be narrowed to paths. -/
inductive DirtyReason where
  /-- A write without a specific place. -/
  | unknownWrite
  /-- A mutation that told no paths. -/
  | customMutation
  /-- A path that could not be read. -/
  | nonTrackablePatch
  /-- More roots than the lane keeps. -/
  | fallbackPolicy
  deriving DecidableEq, Repr

namespace DirtyReason

def table : List (String × DirtyReason) :=
  [("unknown_write", .unknownWrite), ("custom_mutation", .customMutation),
   ("non_trackable_patch", .nonTrackablePatch), ("fallback_policy", .fallbackPolicy)]

def name : DirtyReason → String
  | .unknownWrite => "unknown_write"
  | .customMutation => "custom_mutation"
  | .nonTrackablePatch => "non_trackable_patch"
  | .fallbackPolicy => "fallback_policy"

def toValue (r : DirtyReason) : Value := .str r.name

end DirtyReason

inductive DirtySet where
  | roots (paths : List Path)
  | everything (reason : DirtyReason)
  deriving DecidableEq

namespace DirtySet

def empty : DirtySet := .roots []

instance : Inhabited DirtySet := ⟨empty⟩

def paths : DirtySet → List Path
  | .roots ps => ps
  | .everything _ => []

/-- The reason why everything is dirty, if it is. -/
def reason? : DirtySet → Option DirtyReason
  | .roots _ => none
  | .everything r => some r

def isEmpty : DirtySet → Bool
  | .roots ps => ps.isEmpty
  | .everything _ => false

def size (d : DirtySet) : Nat := d.paths.length

/-- Put a root at its place in the order; covered roots go. -/
def insertRoot (p : Path) (roots : List Path) : List Path :=
  if roots.any (·.covers p) then roots
  else
    let kept := roots.filter fun r => !p.covers r
    kept.takeWhile (· < p) ++ p :: kept.dropWhile (· < p)

def insert (p : Path) : DirtySet → DirtySet
  | .roots ps => .roots (insertRoot p ps)
  | .everything r => .everything r

def ofPaths (ps : List Path) : DirtySet := ps.foldl (fun d p => d.insert p) empty

/-- Make everything dirty; the first reason stands. -/
def markAll (reason : DirtyReason) : DirtySet → DirtySet
  | .roots _ => .everything reason
  | .everything r => .everything r

def union (d other : DirtySet) : DirtySet :=
  match other with
  | .everything r => d.markAll r
  | .roots ps => ps.foldl (fun d p => d.insert p) d

end DirtySet

/-- A dirty set told by the ids of one graph. -/
structure DirtyIds where
  /-- Sorted, each once. -/
  ids : List PathId
  all : Option DirtyReason
  deriving DecidableEq

namespace DirtyIds

def ofIds (ids : List PathId) : DirtyIds := ⟨ids.mergeSort.eraseReps, none⟩

def isEmpty (d : DirtyIds) : Bool := d.all.isNone && d.ids.isEmpty

/-- Hash of the ids; zero when everything is dirty. -/
def keyHash (d : DirtyIds) : UInt32 := if d.all.isSome then 0 else Digest.ofIds d.ids

end DirtyIds

/-- The roots in ids of a table. A root the table lacks counts as its nearest ancestor
there; one without such an ancestor overlaps no step and is dropped. -/
def DirtySet.resolve (t : PathTable) : DirtySet → DirtyIds
  | .everything r => ⟨[], some r⟩
  | .roots ps =>
    let mapped := (ps.filterMap t.resolve).filterMap t.path?
    ⟨((Path.roots mapped).filterMap t.id?).mergeSort, none⟩

/-- A dirty set as it is reported. -/
structure DirtySummary where
  all : Option DirtyReason
  rootCount : Nat
  keyHash : UInt32
  /-- The first roots. -/
  roots : List String
  deriving DecidableEq, Repr

namespace DirtySummary

/-- The summary with at most so many roots. -/
def of (t : PathTable) (topK : Nat) (d : DirtyIds) : DirtySummary :=
  ⟨d.all, d.ids.length, d.keyHash, (d.ids.take topK).map t.textOf⟩

def toValue (s : DirtySummary) : Value :=
  .record [("dirty_all", .bool s.all.isSome), ("reason", .ofOption DirtyReason.toValue s.all),
    ("root_count", .ofNat s.rootCount), ("key_hash", .ofNat s.keyHash.toNat), ("roots", .ofList .str s.roots)]

end DirtySummary

end Settle
