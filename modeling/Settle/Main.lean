/-
  Settle.Main — the command line: one line of JSON for each line of a run.
-/

import Settle.Demo
import Settle.Value.Text

namespace Settle.Demo

def usage : String :=
  "usage: settle [--scenario a|b|c|cycle|priority] [--diagnostics off|light|sampled|full]"
    ++ " [--urgent-step-cap N] [--max-steps N] [--export-ir]"

/-- Run what the arguments ask for. A misuse exits with two. -/
def execute (args : List String) : IO UInt32 := do
  match Options.ofArgs? args with
  | none =>
    IO.eprintln usage
    return 2
  | some options =>
    match lines options with
    | .error e =>
      IO.eprintln e.message
      return 1
    | .ok told =>
      for line in told do
        IO.println line.text
      return 0

end Settle.Demo

def main (args : List String) : IO UInt32 := Settle.Demo.execute args
