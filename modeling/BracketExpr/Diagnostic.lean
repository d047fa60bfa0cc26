import BracketExpr.Fault
import BracketExpr.Lexeme.Numeral

/-!
# Diagnostics

A diagnostic is a fault with its byte offset into the whole input. Its rendering shows the line of
the input in which the offset lies, and a caret under the character at the offset. Rendering is
total: an offset past the end counts as the end, and one inside a character as its start.
-/

namespace BracketExpr

/-- What is wrong with an input and at which byte. -/
structure Diagnostic where
  /-- What is wrong. -/
  kind : FaultKind
  /-- The byte offset of the failure. -/
  offset : Nat
  /-- The offending text at that offset, if there is any. -/
  found : Option String
  deriving DecidableEq, Repr

namespace Diagnostic

/-- The part of a message that quotes the offending text. -/
def foundMessage : Option String → String
  | none => ""
  | some found => " (found '" ++ found ++ "')"

/-- The message of a diagnostic, in one line unless the offending text has several. -/
def message (d : Diagnostic) : String :=
  d.kind.message ++ " at offset " ++ String.ofList (Numeral.naturalText d.offset)
    ++ foundMessage d.found

/-- The line of the text `s` around byte offset `n`, and a caret below the character at the
offset, each ended by a line feed. Columns count characters. -/
def pointer (n : Nat) (s : Text) : Text :=
  let before := Text.takeBytes n s
  let after := s.drop before.length
  let start := Text.lastLine before
  start ++ Text.firstLine after ++ '\n' :: (List.replicate start.length ' ' ++ ['^', '\n'])

/-- The rendering of a diagnostic about `input`: the line with its pointer, then the message. -/
def render (d : Diagnostic) (input : String) : String :=
  String.ofList (pointer d.offset input.toList) ++ d.message

end Diagnostic

end BracketExpr
