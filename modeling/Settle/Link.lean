/-
  Settle.Link — copies between instances.

  A link copies the value at a path of one instance to a path of another whenever it
  changes. The copy is a commit on the target; a source that became absent leaves the
  target as it is.
-/

import Settle.Commit
import Settle.Error

namespace Settle

structure Link where
  source : Key
  sourcePath : Path
  target : Key
  targetPath : Path
  deriving DecidableEq

namespace Link

/-- Read a link. The target names no list item, and no link reads what it writes. -/
def parse (source : Key) (sourcePath : String) (target : Key) (targetPath : String) : Except Error Link := do
  let sourcePath ← Error.parsePath sourcePath "link source"
  let targetPath ← Error.parsePath targetPath "link target"
  if targetPath.hasWildcard then throw (.wildcardTarget targetPath.text)
  if source = target ∧ sourcePath.overlaps targetPath then throw (.selfLink targetPath.text)
  return ⟨source, sourcePath, target, targetPath⟩

/-- The commit that writes a value to the target. -/
def commit (l : Link) (v : Value) (prev : Option Value) (priority : Priority) : Commit :=
  ⟨0, .link, priority,
    { Change.empty with
      writes := ((Location.ofPath? l.targetPath).map fun t => (t, v)).toList
      dirty := .ofPaths [l.targetPath]
      patches := [⟨l.targetPath.text, .link, prev, some v, none⟩] }⟩

/-- The value to copy after the source went from one state to another. -/
def copied? (l : Link) (before after : Value) : Option Value :=
  (State.read after l.sourcePath).filter fun next => !(State.read before l.sourcePath).any (·.same next)

def toValue (l : Link) : Value :=
  .record [("src", l.source.toValue), ("src_path", .str l.sourcePath.text), ("dst", l.target.toValue),
    ("dst_path", .str l.targetPath.text)]

/-- The links that moved with an instance, and the values they copy. -/
def propagate (links : List Link) (source : Key) (before after : Value) : List (Link × Value) :=
  (links.filter (·.source = source)).filterMap fun l => (l.copied? before after).map fun v => (l, v)

end Link

end Settle
