import ConfTree.CommandLine.Given

/-!
# The program

The command line: the words come as arguments, and the surroundings as a JSON object on standard
input, which is read only if there is a command to run.
-/
open ConfTree

/-- The rest of a stream. -/
partial def readRest (input : IO.FS.Stream) (read : String) : IO String := do
  let line ← input.getLine
  if line.isEmpty then return read else readRest input (read ++ line)

/-- Runs the command that the arguments ask for. -/
def main (arguments : List String) : IO UInt32 := do
  let outcome ← match CommandLine.parse (arguments.map Text.ofString) with
    | .error stop => pure (CommandLine.stopped stop)
    | .ok invocation => do
      let given ← readRest (← IO.getStdin) ""
      pure (CommandLine.invoke (.ofText (Text.ofString given)) invocation)
  (← IO.getStdout).putStr outcome.stdout.toString
  (← IO.getStderr).putStr outcome.stderr.toString
  return outcome.code.toUInt32
