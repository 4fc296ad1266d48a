/-
  Settle.Pass.Patch — one recorded change, and the transaction it belongs to.
-/

import Settle.Dirty
import Settle.Graph.Step

namespace Settle

/-- What wrote a change. -/
inductive PatchReason where
  /-- A user's write. -/
  | reducer
  | computed
  | link
  /-- A resource came in. -/
  | sourceRefresh
  | devtools
  | perf
  | unknown
  deriving DecidableEq, Repr

namespace PatchReason

def table : List (String × PatchReason) :=
  [("reducer", .reducer), ("trait-computed", .computed), ("trait-link", .link), ("source-refresh", .sourceRefresh),
   ("devtools", .devtools), ("perf", .perf)]

def name : PatchReason → String
  | .reducer => "reducer"
  | .computed => "trait-computed"
  | .link => "trait-link"
  | .sourceRefresh => "source-refresh"
  | .devtools => "devtools"
  | .perf => "perf"
  | .unknown => "unknown"

/-- The reason a tag stands for. Any tag of a source is a refresh. -/
def ofTag (tag : String) : PatchReason :=
  match table.lookup tag with
  | some r => r
  | none => if tag.startsWith "source:" then .sourceRefresh else .unknown

end PatchReason

structure Patch where
  /-- The path as the writer gave it. -/
  path : String
  reason : PatchReason
  prev : Option Value
  next : Option Value
  /-- The step that wrote it. -/
  step : Option StepId

namespace Patch

def toValue (p : Patch) : Value :=
  .record [("path", .str p.path), ("reason", .str p.reason.name), ("prev", .ofOption id p.prev),
    ("next", .ofOption id p.next), ("step", .ofOption .ofNat p.step)]

end Patch

/-- What passes work on: the state being built, the patches so far, what is dirty, and
the number of the transaction. -/
structure Context where
  draft : Value
  patches : List Patch
  dirty : DirtySet
  txnSeq : Nat

/-- Work a pass left behind, in paths, so that it outlives a new graph. -/
structure Carried where
  /-- Changes not passed on to earlier steps. -/
  dirtyRoots : List Path
  /-- Fields of steps that were due and did not run. -/
  forcedOuts : List Path
  deriving DecidableEq

namespace Carried

def isEmpty (c : Carried) : Bool := c.dirtyRoots.isEmpty && c.forcedOuts.isEmpty

/-- Append what is not there yet. -/
def appendNew (a b : List Path) : List Path := b.foldl (fun acc p => if acc.contains p then acc else acc ++ [p]) a

def merge (a b : Carried) : Carried := ⟨appendNew a.dirtyRoots b.dirtyRoots, appendNew a.forcedOuts b.forcedOuts⟩

/-- Merge where either may be missing. -/
def merge? : Option Carried → Option Carried → Option Carried
  | a, none => a
  | none, some b => some b
  | some a, some b => some (a.merge b)

def toValue (c : Carried) : Value :=
  .record [("dirty_roots", .ofList (.str ·.text) c.dirtyRoots), ("forced_outs", .ofList (.str ·.text) c.forcedOuts)]

end Carried

end Settle
