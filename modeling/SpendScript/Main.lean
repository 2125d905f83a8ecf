/-
  The program: it runs the command line and prints the outcome.
-/
import SpendScript.Command.Run

/-- Prints the outcome of the command line and ends with its status. -/
def main (args : List String) : IO UInt32 := do
  let outcome := SpendScript.Command.run args
  IO.print outcome.stdout
  IO.eprint (outcome.stderr.getD "error: invalid arguments\n")
  return UInt32.ofNat outcome.status
