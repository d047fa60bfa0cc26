import BracketExpr.Command.Failure

/-!
# Standard input

A statement that is not given as an argument is piped in as UTF-8. One line break at its end is
not part of the statement, so that what other programs print or a text file holds can be piped in.
-/

namespace BracketExpr

namespace Command

/-- A text without the line break at its end, if it has one: a line feed and the carriage return
before it, if there is one. -/
def withoutLineBreak (s : Text) : Text :=
  match s.reverse with
  | '\n' :: '\r' :: r => r.reverse
  | '\n' :: r => r.reverse
  | _ => s

/-- What standard input is connected to. -/
inductive Input where
  /-- A terminal, from which no statement is read. -/
  | terminal
  /-- A pipe or file with the given content. -/
  | piped (bytes : ByteArray)

namespace Input

/-- The statement on standard input, if there is one. -/
def statement? : Input → Except Failure (Option String)
  | terminal => .ok none
  | piped bytes =>
    match String.fromUTF8? bytes with
    | some s => .ok (some (String.ofList (withoutLineBreak s.toList)))
    | none => .error (.io "stream did not contain valid UTF-8")

end Input

end Command

end BracketExpr
