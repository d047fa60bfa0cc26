import BracketExpr.Cursor
import BracketExpr.Lexeme.Boolean
import BracketExpr.Lexeme.Name
import BracketExpr.Lexeme.Numeral
import BracketExpr.Lexeme.Quoted

/-!
# Cursor operations

The operations on a cursor as data, so that runs of any length can be described: observations,
which leave the cursor where it is, moves, and the reading of single lexemes. A reading that fails
does not end a run; the next operation starts where the failed one left the cursor.
-/

namespace BracketExpr

namespace Cursor

/-- An operation on a cursor. -/
inductive Operation where
  | position
  | atEnd
  | current
  /-- The character that many characters ahead. -/
  | peek (k : Nat)
  | advance
  | skipBlanks
  /-- Move past the given character, if it is the current one. -/
  | eat (c : Char)
  | diagnose (kind : FaultKind)
  /-- A diagnostic of the given kind at a byte offset of the input. -/
  | diagnoseAt (kind : FaultKind) (offset : Nat)
  | functionName
  | memberName
  | atCall
  | number
  | boolean
  | quoted
  deriving DecidableEq, Repr

/-- What an operation answers. -/
inductive Answer where
  | moved
  | offset (n : Nat)
  | truth (b : Bool)
  /-- A character, none beyond the end of the input. -/
  | character (c : Option Char)
  /-- A name, none where there was none. -/
  | name (s : Option String)
  /-- A boolean, none where there was none. -/
  | boolean (b : Option Bool)
  | number (n : Int64)
  /-- The text that a quoted text stands for. -/
  | text (s : String)
  /-- The diagnostic asked for, or that of a failed reading. -/
  | diagnostic (d : Diagnostic)
  /-- An offset that is no character boundary of the input has no diagnostic. -/
  | noBoundary
  deriving DecidableEq, Repr

/-- Runs a reader and presents its value as an answer. -/
def answer {α : Type} (c : Cursor) (r : Reader α) (present : α → Answer) : Answer × Cursor :=
  let (result, c') := c.run r
  match result with
  | .ok a => (present a, c')
  | .error d => (.diagnostic d, c')

/-- Performs one operation: its answer, and the cursor after it. -/
def perform (c : Cursor) : Operation → Answer × Cursor
  | .position => (.offset c.position, c)
  | .atEnd => (.truth c.atEnd, c)
  | .current => (.character c.current, c)
  | .peek k => (.character (c.peek k), c)
  | .advance => c.answer Reader.advance fun _ => .moved
  | .skipBlanks => c.answer Reader.skipBlanks fun _ => .moved
  | .eat ch => c.answer (Reader.eat ch) .truth
  | .diagnose kind => (.diagnostic (c.diagnose (.atStart kind c.rest)), c)
  | .diagnoseAt kind offset =>
    match c.diagnoseAt? kind offset with
    | some d => (.diagnostic d, c)
    | none => (.noBoundary, c)
  | .functionName => c.answer Reader.functionName .name
  | .memberName => c.answer Reader.memberName .name
  | .atCall => c.answer Reader.atCall .truth
  | .number => c.answer Reader.number .number
  | .boolean => c.answer Reader.boolean .boolean
  | .quoted => c.answer Reader.quoted .text

/-- Performs operations one after the other: each answer, with the cursor after it. -/
def performAll (c : Cursor) : List Operation → List (Answer × Cursor)
  | [] => []
  | op :: ops =>
    let step := c.perform op
    step :: step.2.performAll ops

end Cursor

end BracketExpr
