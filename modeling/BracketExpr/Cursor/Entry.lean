import BracketExpr.Cursor
import BracketExpr.Tree.Equality
import BracketExpr.Tree.Reader

/-!
# Entries

The parts of the grammar that can be read on their own at a cursor, as data. A session reads one
entry after the other from the same input, going on after a failure where the failed entry left
the cursor. The cursor is all that connects them.
-/

namespace BracketExpr

/-- A part of the grammar that can be read on its own. -/
inductive Entry where
  | expression
  /-- An expression up to the bracket that closes the input. -/
  | enclosed
  /-- An accessor, possibly without steps. -/
  | accessor
  deriving DecidableEq, Repr

namespace Entry

/-- What the reading of an entry yields. -/
inductive Yield where
  | expression (e : Expr)
  /-- The steps of an accessor, none if there is no accessor. -/
  | accessor (steps : List Step)
  | diagnostic (d : Diagnostic)
  deriving DecidableEq

/-- Reads an entry at a cursor under a nesting limit: its yield, and the cursor after it. -/
def run (limit : Nat) (c : Cursor) : Entry → Yield × Cursor
  | expression =>
    match c.run (Reader.expression limit) with
    | (.ok e, c') => (.expression e, c')
    | (.error d, c') => (.diagnostic d, c')
  | enclosed =>
    match c.run (Reader.enclosed limit) with
    | (.ok e, c') => (.expression e, c')
    | (.error d, c') => (.diagnostic d, c')
  | accessor =>
    match c.run (Reader.accessor limit) with
    | (.ok steps, c') => (.accessor steps, c')
    | (.error d, c') => (.diagnostic d, c')

/-- Reads entries one after the other: each yield, with the cursor after it. -/
def runAll (limit : Nat) (c : Cursor) : List Entry → List (Yield × Cursor)
  | [] => []
  | entry :: entries =>
    let step := entry.run limit c
    step :: runAll limit step.2 entries

end Entry

end BracketExpr
