import ConfigTree.Command.Report
/-!
# The command-line program
-/

open ConfigTree.Command in
def main (arguments : List String) : IO UInt32 := do
  let outcome := execute arguments
  (← IO.getStdout).putStr outcome.output
  (← IO.getStderr).putStr outcome.errorOutput
  return outcome.exitCode.toUInt32
