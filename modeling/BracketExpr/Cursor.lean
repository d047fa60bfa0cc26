import BracketExpr.Diagnostic
import BracketExpr.Reader

/-!
# Cursors

A cursor stands between two characters of an input: what lies before it has been consumed, and
the rest has not. Running a reader at a cursor moves it forward and turns the point of a fault into
a byte offset.
-/

namespace BracketExpr

variable {α : Type}

/-- A point in an input. -/
structure Cursor where
  /-- The text before the cursor. -/
  consumed : Text
  /-- The text from the cursor on. -/
  rest : Text
  deriving DecidableEq, Repr

namespace Cursor

/-- The cursor at the start of an input. -/
def start (input : Text) : Cursor :=
  ⟨[], input⟩

/-- The whole input around a cursor. -/
def input (c : Cursor) : Text :=
  c.consumed ++ c.rest

/-- The byte offset of a cursor. -/
def position (c : Cursor) : Nat :=
  Text.byteLength c.consumed

/-- Whether the input ends at the cursor. -/
def atEnd (c : Cursor) : Bool :=
  c.rest.isEmpty

/-- The character at the cursor, if the input does not end there. -/
def current (c : Cursor) : Option Char :=
  c.rest.head?

/-- The character `k` characters after the cursor, if the input goes that far. -/
def peek (c : Cursor) (k : Nat) : Option Char :=
  c.rest[k]?

/-- Moves a cursor forward until `rest` is left, which has to be a final part of the text it
stands before. -/
def moveTo (c : Cursor) (rest : Text) : Cursor :=
  ⟨c.consumed ++ c.rest.take (c.rest.length - rest.length), rest⟩

/-- The diagnostic for a fault in the text after a cursor. -/
def diagnose (c : Cursor) (fault : Fault) : Diagnostic :=
  ⟨fault.kind, (c.moveTo fault.rest).position, fault.found.map String.ofList⟩

/-- The diagnostic for a fault of the given kind at a byte offset of the input, which shows the
character at the offset. There is none unless the offset is a character boundary of the input. -/
def diagnoseAt? (c : Cursor) (kind : FaultKind) (offset : Nat) : Option Diagnostic :=
  (Text.dropBytes? offset c.input).map fun rest =>
    ⟨kind, offset, rest.head?.map fun ch => String.ofList [ch]⟩

/-- Runs a reader at a cursor: its result, and the cursor where it stopped. -/
def run (c : Cursor) (r : Reader α) : Except Diagnostic α × Cursor :=
  match r c.rest with
  | .done a rest => (.ok a, c.moveTo rest)
  | .failed fault rest => (.error (c.diagnose fault), c.moveTo rest)

/-- Moves a cursor past `n` characters, or to the end of the input. -/
def advance (c : Cursor) (n : Nat) : Cursor :=
  c.moveTo (c.rest.drop n)

@[simp]
theorem rest_moveTo (c : Cursor) (rest : Text) : (c.moveTo rest).rest = rest := rfl

/-- A cursor that is moved forward stays in its input. -/
theorem input_moveTo {c : Cursor} {rest : Text} (h : rest <:+ c.rest) :
    (c.moveTo rest).input = c.input := by
  simp only [input, moveTo, List.append_assoc, List.suffix_iff_eq_append.1 h]

/-- What a reader leaves is what the cursor stands before afterwards. -/
theorem rest_run (c : Cursor) (r : Reader α) : (c.run r).2.rest = (r c.rest).rest := by
  unfold run
  split <;> simp_all [Reading.rest]

/-- Running a reader stays in the same input. -/
theorem input_run (c : Cursor) (r : Reader α) : (c.run r).2.input = c.input := by
  have h := (r.within c.rest).rest_suffix
  unfold run
  split <;> simp_all [Reading.rest, input_moveTo]

end Cursor

end BracketExpr
