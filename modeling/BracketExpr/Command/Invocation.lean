import BracketExpr.Command.Task

/-!
# Invocations

What a command line can ask the program to do, and what can be wrong with one.
-/

namespace BracketExpr

namespace Command

/-- What the program is asked to do. -/
inductive Invocation where
  | version
  | help
  /-- Carry out a task on a statement, which comes from standard input if it is not given. -/
  | task (task : Task) (limit : Nat) (statement? : Option String)
  /-- Show the manual: a topic, or the overview. -/
  | manual (topic? : Option String)
  deriving DecidableEq, Repr

/-- What is wrong with a command line. -/
inductive UsageError where
  | missingSubcommand
  | unknownSubcommand (name : String)
  | unknownOption (option : String)
  | repeatedOption (option : String)
  | missingValue (option : String)
  | invalidValue (option value : String)
  | unexpectedValue (option : String)
  | unexpectedArgument (argument : String)
  deriving DecidableEq, Repr

/-- What is reported about a command line that is wrong, in the words of this library. A library for
command lines words these errors in another way and adds the usage and suggestions; what counts is
that the line is refused. -/
def UsageError.message : UsageError → String
  | missingSubcommand => "a subcommand is required"
  | unknownSubcommand name => "unrecognized subcommand '" ++ name ++ "'"
  | unknownOption option => "unexpected option '" ++ option ++ "'"
  | repeatedOption option => "the option '" ++ option ++ "' cannot be used multiple times"
  | missingValue option => "the option '" ++ option ++ "' requires a value"
  | invalidValue option value => "invalid value '" ++ value ++ "' for '" ++ option ++ "'"
  | unexpectedValue option => "the option '" ++ option ++ "' takes no value"
  | unexpectedArgument argument => "unexpected argument '" ++ argument ++ "'"

end Command

end BracketExpr
