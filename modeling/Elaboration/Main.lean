import Elaboration.CommandLine

/-!
# The program
-/

open Elaboration in
/-- Runs the command line with the arguments and environment of the process. -/
def main (args : List String) : IO UInt32 := do
  let colorize ← IO.getEnv "KILN_COLORIZE"
  let term ← IO.getEnv "TERM"
  let noColor ← IO.getEnv "NO_COLOR"
  let env := fun name =>
    if name = "KILN_COLORIZE" then colorize
    else if name = "TERM" then term
    else if name = "NO_COLOR" then noColor
    else none
  let output := CommandLine.run args env
  IO.print output.stdout
  IO.eprint output.stderr
  return output.exit.toUInt32
