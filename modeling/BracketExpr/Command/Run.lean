import BracketExpr.Command.Input
import BracketExpr.Command.Line
import BracketExpr.Command.Manual

/-!
# Running a command

What the program prints and how it exits, as a function of its arguments and of standard input. It
exits with 0 after a success, with 1 after a failure, and with 2 if the command line is wrong.
-/

namespace BracketExpr

namespace Command

/-- How the program ends. Traces are left out: at the trace levels `debug` and `trace` the program
also writes log lines to standard error, with the time on them, which are not part of `stderr`. -/
structure Exit where
  code : Nat
  stdout : String
  /-- What is reported about a failure, without the log lines of a trace. -/
  stderr : String
  deriving DecidableEq, Repr

namespace Exit

/-- A success that prints a text. -/
def success (text : String) : Exit :=
  ⟨0, text, ""⟩

/-- A failure, which is reported in place of any output. -/
def failure (f : Failure) : Exit :=
  ⟨1, "", f.message ++ "\n"⟩

/-- The end of a run whose command line is wrong. The code is what such a run is known by; the
wording is that of `UsageError.message`. -/
def usage (e : UsageError) : Exit :=
  ⟨2, "", "error: " ++ e.message ++ "\n"⟩

/-- Success or failure, depending on the result of a command. -/
def ofExcept : Except Failure String → Exit
  | .ok text => success text
  | .error f => failure f

end Exit

/-- The name and version of the program. -/
def versionText : String :=
  "dscexpr 0.2.0\n"

/-- How the program is used, in the words of this library: the help that a library for command
lines puts together from the options is worded and laid out in another way, also for each
subcommand. -/
def helpText : String :=
  Manual.print
    ["Classify and parse bracketed expressions in configuration string values",
     "",
     "Usage: dscexpr [--trace-level LEVEL] COMMAND",
     "",
     "Commands:",
     "  parse [STATEMENT] [--max-depth N] [-p, --pretty]  Print the statement as JSON",
     "  check [STATEMENT] [--max-depth N]                 Only validate syntax",
     "  format [STATEMENT] [--max-depth N]                Print the canonical form",
     "  functions [STATEMENT] [--max-depth N]             List the function names",
     "  docs [TOPIC]                                      Show the syntax reference",
     "",
     "A statement that is not given is read from standard input."]

/-- The statement of an invocation: the given one, as it is, or else that on standard input. -/
def statement? (given? : Option String) (input : Input) : Except Failure (Option String) :=
  match given? with
  | some s => .ok (some s)
  | none => input.statement?

namespace Invocation

/-- Whether an invocation reads standard input. -/
def readsInput : Invocation → Bool
  | task _ _ none => true
  | task _ _ (some _) | version | help | manual _ => false

/-- What an invocation prints, if it succeeds. -/
def perform (input : Input) : Invocation → Except Failure String
  | version => .ok versionText
  | help => .ok helpText
  | task t limit given? => do
    let output ← t.run? limit (← statement? given? input)
    return output.print
  | manual none => .ok Manual.overview
  | manual (some topic) => Manual.lookUp topic

end Invocation

/-- Runs the program with `read` as the reader of its command line. -/
def runWith (read : List String → Except UsageError Invocation) (arguments : List String)
    (input : Input) : Exit :=
  match read arguments with
  | .ok invocation => .ofExcept (invocation.perform input)
  | .error e => .usage e

/-- Runs the program. -/
def run (arguments : List String) (input : Input) : Exit :=
  runWith Line.read arguments input

end Command

end BracketExpr
