/-
  Settle.Error — what can go wrong in declaring and driving modules.

  Falling short of stability is no error: a pass or a tick that meets a cap reports
  why. Failures inside derive functions are faults (`Settle.Fault`).
-/

import Settle.Path
import Settle.Key
import Settle.Text.Listed

namespace Settle

inductive Error where
  /-- Two entries claim one path. -/
  | duplicatePath (path firstGroup secondGroup : String)
  /-- A computed entry depends on nothing, so nothing would ever run it again. -/
  | missingDeps (path : String)
  /-- A text is no path. -/
  | invalidPath (raw context : String) (cause : PathError)
  /-- A derived field names a list item. -/
  | wildcardTarget (path : String)
  /-- A link copies itself. -/
  | selfLink (path : String)
  /-- A chain of links comes back to where it began. -/
  | linkCycle (path : String)
  /-- Immediate steps that no order suits. -/
  | immediateCycle (steps : List String)
  | unknownInstance (key : Key)
  | duplicateInstance (key : Key)
  /-- A transaction is open on the instance. -/
  | nestedTransaction (key : Key)
  /-- A watcher's channel is full. -/
  | backpressure (key : Key) (action : String)
  /-- Watchers need a clock to run on. -/
  | noClock (action : String)
  | watcherClosed (key : Key) (action : String)
  deriving DecidableEq, Repr

namespace Error

def message : Error → String
  | .duplicatePath path a b => s!"field path `{path}` declared by both `{a}` and `{b}`"
  | .missingDeps path => s!"computed field `{path}` must declare explicit deps"
  | .invalidPath raw context cause => s!"invalid field path `{raw}` in {context}: {cause.message}"
  | .wildcardTarget path => s!"derived field `{path}` cannot target a list item wildcard"
  | .selfLink path => s!"link `{path}` reads from itself"
  | .linkCycle path => s!"link cycle detected at `{path}`"
  | .immediateCycle steps => s!"cycle among immediate steps: {Text.listed steps}"
  | .unknownInstance key => s!"unknown module instance: {key.text}"
  | .duplicateInstance key => s!"module instance already registered: {key.text}"
  | .nestedTransaction key => s!"nested transaction on {key.text}"
  | .backpressure key action => s!"watcher `{action}` on {key.text} is at capacity"
  | .noClock action => s!"watcher `{action}` needs a tokio runtime"
  | .watcherClosed key action => s!"watcher `{action}` on {key.text} is closed"

/-- Read a path that a declaration or a caller gave as text. -/
def parsePath (raw context : String) : Except Error Path :=
  match Path.parse raw with
  | .ok p => .ok p
  | .error cause => .error (.invalidPath raw context cause)

end Error

end Settle
