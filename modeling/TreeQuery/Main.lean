import TreeQuery.Command.Program

/-!
# The executable

Standard input is read only for a command line that asks for it, and not from a terminal.
-/

namespace TreeQuery

/-- What stands at the standard input. -/
def StandardInput.fetch : IO StandardInput := do
  let stdin ← IO.getStdin
  if ← stdin.isTty then return .terminal
  match String.fromUTF8? (← stdin.readBinToEnd) with
  | some s => return .text s
  | none => return .notText

end TreeQuery

/-- Run the program on the process's arguments and streams, and end with its code. -/
def main (arguments : List String) : IO UInt32 := do
  let input ←
    if TreeQuery.Program.wantsInput arguments then TreeQuery.StandardInput.fetch else pure .terminal
  let output := TreeQuery.Program.run arguments input
  (← IO.getStdout).putStr output.stdout
  (← IO.getStderr).putStr output.stderr
  return .ofNat output.code
