import BracketExpr.Classify
import BracketExpr.Command.Failure
import BracketExpr.Json.Tree
import BracketExpr.Tree.Canonical
import BracketExpr.Tree.Nesting

/-!
# Tasks

A task says what to do with a statement: show its tree, check it, bring it into canonical form, or
list the functions it calls. Each task classifies the statement first and fails if that fails.
-/

namespace BracketExpr

namespace Command

/-- What to do with a statement. -/
inductive Task where
  | parse (layout : Json.Layout)
  | check
  | format
  | functions
  deriving DecidableEq, Repr

/-- What a task yields. -/
inductive Output where
  | json (text : String)
  | syntaxValid
  | formatted (text : String)
  /-- The names of the functions that are called, in the order in which they are written. -/
  | functionNames (names : List String)
  deriving DecidableEq, Repr

/-- What a task yields for a classified statement. -/
def Task.output (statement : Statement) : Task → Output
  | parse layout => .json (statement.toJson.text layout)
  | check => .syntaxValid
  | format => .formatted statement.text
  | functions => .functionNames statement.functionNames

/-- Carries out a task on the text of a statement under a nesting limit. -/
def Task.run (task : Task) (limit : Nat) (input : String) : Except Failure Output :=
  match classify limit input with
  | .ok statement => .ok (task.output statement)
  | .error diagnostic => .error (.parse diagnostic input)

/-- Carries out a task on the text of a statement, if there is one. -/
def Task.run? (task : Task) (limit : Nat) : (input? : Option String) → Except Failure Output
  | some input => task.run limit input
  | none => .error .noInput

/-- The lines that an output is printed as. -/
def Output.lines : Output → List String
  | json text => [text]
  | syntaxValid => ["Syntax is valid"]
  | formatted text => [text]
  | functionNames names => names

/-- The printed form of an output: each of its lines, ended by a line feed. -/
def Output.print (output : Output) : String :=
  String.join (output.lines.map (· ++ "\n"))

end Command

end BracketExpr
