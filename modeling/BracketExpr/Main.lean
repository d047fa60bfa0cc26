import BracketExpr.Command.Run

/-!
# The program

Connects `BracketExpr.Command.run` to the arguments and streams of the process. Standard input is
read only if the statement is to come from there.
-/

namespace BracketExpr

namespace Command

/-- Standard input, if the command line asks for it. -/
def standardInput (arguments : List String) : IO Input := do
  match Line.read arguments with
  | .ok invocation =>
    let stdin ← IO.getStdin
    if invocation.readsInput && !(← stdin.isTty) then
      return .piped (← stdin.readBinToEnd)
    else
      return .terminal
  | .error _ => return .terminal

end Command

end BracketExpr

/-- Runs the program and exits with its code. -/
def main (arguments : List String) : IO UInt32 := do
  let exit := BracketExpr.Command.run arguments (← BracketExpr.Command.standardInput arguments)
  (← IO.getStdout).putStr exit.stdout
  (← IO.getStderr).putStr exit.stderr
  return exit.code.toUInt32
