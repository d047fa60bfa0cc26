import BracketExpr.Text

/-!
# Faults

A fault says what is wrong with a text and where. The place is the text that remains from the
point of failure on, so a fault found in a remaining text means the same wherever that text
stands. Byte offsets enter only with diagnostics.
-/

namespace BracketExpr

/-- The kinds of failure at which the reading of an expression stops. -/
inductive FaultKind where
  /-- The text where a function name belongs does not start with one. -/
  | invalidFunctionName
  /-- A function name is not followed by an opening parenthesis. -/
  | expectedOpenParen
  /-- An argument list is not closed. -/
  | expectedCloseParen
  /-- An argument is neither a number, a quoted text, a boolean nor a call. -/
  | invalidArgument
  /-- A sign without digits, or a value outside the signed 64-bit range. -/
  | invalidNumber
  /-- A quoted text has no closing quote. -/
  | unterminatedString
  /-- A point is not followed by a member name. -/
  | invalidMemberName
  /-- An index is not closed. -/
  | unterminatedIndex
  /-- An index is neither a call, a number nor a quoted text. -/
  | invalidIndexValue
  /-- Calls are nested more deeply than the limit allows. -/
  | maxDepthExceeded
  /-- More text where the statement should end. -/
  | trailingCharacters
  /-- The text ends inside an expression. -/
  | unexpectedEndOfInput
  deriving DecidableEq, Repr, Inhabited

/-- The wording of each kind of fault. -/
def FaultKind.message : FaultKind → String
  | invalidFunctionName => "invalid function name"
  | expectedOpenParen => "expected '(' after function name"
  | expectedCloseParen => "expected ')' to close argument list"
  | invalidArgument => "invalid argument"
  | invalidNumber => "invalid number"
  | unterminatedString => "unterminated string"
  | invalidMemberName => "invalid member name"
  | unterminatedIndex => "unterminated index"
  | invalidIndexValue => "invalid index value"
  | maxDepthExceeded => "maximum nesting depth exceeded"
  | trailingCharacters => "unexpected trailing characters"
  | unexpectedEndOfInput => "unexpected end of input"

/-- A failure at a point of a text. -/
structure Fault where
  /-- What is wrong. -/
  kind : FaultKind
  /-- The text from the point of failure on. -/
  rest : Text
  /-- The offending text at that point, if there is any. -/
  found : Option Text
  deriving DecidableEq, Repr

/-- A fault at the start of `s` that shows the first character of `s`, if there is one. -/
def Fault.atStart (kind : FaultKind) (s : Text) : Fault :=
  ⟨kind, s, s.head?.map fun c => [c]⟩

end BracketExpr
