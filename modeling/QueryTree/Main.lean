import QueryTree.CommandLine.Run

/-!
# The program

Reads the arguments and, where an action asks for it, the input, and writes what
the action answers.
-/

namespace QueryTree.CommandLine

/-- The input of the program, read to its end unless it is a terminal. -/
def readInput : IO Input := do
  let stdin ← IO.getStdin
  if ← stdin.isTty then return .terminal
  return .bytes (← stdin.readBinToEnd)

/-- Runs the program on its arguments and answers its exit code. -/
def perform (args : List Text) : IO UInt32 := do
  let reads := match invocation args with
    | .ok call => call.action.readsInput
    | .error _ => false
  let input ← if reads then readInput else pure (.bytes ByteArray.empty)
  let outcome := run args input
  (← IO.getStdout).putStr (String.ofList outcome.output)
  (← IO.getStderr).putStr (String.ofList outcome.errors)
  return UInt32.ofNat outcome.exit

end QueryTree.CommandLine

def main (args : List String) : IO UInt32 :=
  QueryTree.CommandLine.perform (args.map String.toList)
