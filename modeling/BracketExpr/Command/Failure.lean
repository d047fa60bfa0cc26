import BracketExpr.Diagnostic

/-!
# Failures

The reasons for which a command fails, and what is reported about them.
-/

namespace BracketExpr

namespace Command

/-- Why a command fails. -/
inductive Failure where
  /-- The statement `input` could not be classified. -/
  | parse (diagnostic : Diagnostic) (input : String)
  /-- JSON text could not be produced. -/
  | json (detail : String)
  /-- The statement could not be read. -/
  | io (detail : String)
  | noInput
  | unknownTopic (name : String)
  deriving DecidableEq, Repr

namespace Failure

/-- What is reported about a failure. -/
def message : Failure → String
  | parse diagnostic input => "Parse error:\n" ++ diagnostic.render input
  | json detail => "JSON error: " ++ detail
  | io detail => "IO error: " ++ detail
  | noInput => "No statement provided. Pass it as an argument or pipe it to stdin."
  | unknownTopic name =>
    "Unknown topic: '" ++ name ++ "'\nRun 'dscexpr docs' to see available topics."

/-- What lies behind a failure, where something does. -/
def cause : Failure → Option String
  | parse diagnostic _ => some diagnostic.message
  | json detail => some detail
  | io detail => some detail
  | noInput | unknownTopic _ => none

end Failure

end Command

end BracketExpr
