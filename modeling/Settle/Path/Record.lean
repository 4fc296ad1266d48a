/-
  Settle.Path.Record — paths in records.

  A record holds a path as its text, and a text in a record is a path when it reads as one.
-/

import Settle.Path
import Settle.Value

namespace Settle.Path

def toValue (p : Path) : Value := .str p.text

/-- Read a path from a value. -/
def ofValue? : Value → Option Path
  | .str s => (parse s).toOption
  | _ => none

end Settle.Path
