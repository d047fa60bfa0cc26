import BracketExpr.Lexeme.Boolean
import BracketExpr.Lexeme.Numeral
import BracketExpr.Lexeme.Quoted
import BracketExpr.Tree.Basic

/-!
# Canonical text

The canonical text of a tree separates arguments by a comma and a space and has no other blanks
outside its strings. Names are written as they are; texts are quoted. An escaped literal gets the
bracket back that marks it as escaped.

The functions `put` write the text of a tree in front of a text that follows it.
-/

namespace BracketExpr

mutual

/-- Puts the canonical text of an expression in front of a text. -/
def Expr.put : Expr → Text → Text
  | ⟨call, accessor⟩, rest => call.put (Step.putAll accessor rest)

/-- Puts the canonical text of a call in front of a text. -/
def Call.put : Call → Text → Text
  | ⟨name, args⟩, rest => name.toList ++ '(' :: Argument.putAll args (')' :: rest)

/-- Puts the canonical text of an argument list in front of a text. -/
def Argument.putAll : List Argument → Text → Text
  | [], rest => rest
  | a :: args, rest => a.put (Argument.putFurther args rest)

/-- Puts the canonical text of the arguments after the first in front of a text. -/
def Argument.putFurther : List Argument → Text → Text
  | [], rest => rest
  | a :: args, rest => ',' :: ' ' :: a.put (Argument.putFurther args rest)

/-- Puts the canonical text of an argument in front of a text. -/
def Argument.put : Argument → Text → Text
  | .expr e, rest => e.put rest
  | .str s, rest => Quoted.encode s.toList ++ rest
  | .num n, rest => Numeral.text n.toInt ++ rest
  | .bool b, rest => booleanText b ++ rest

/-- Puts the canonical text of an accessor in front of a text. -/
def Step.putAll : List Step → Text → Text
  | [], rest => rest
  | s :: steps, rest => s.put (Step.putAll steps rest)

/-- Puts the canonical text of a step in front of a text. -/
def Step.put : Step → Text → Text
  | .member name, rest => '.' :: (name.toList ++ rest)
  | .index i, rest => '[' :: i.put (']' :: rest)

/-- Puts the canonical text of an index in front of a text. -/
def Index.put : Index → Text → Text
  | .expr e, rest => e.put rest
  | .num n, rest => Numeral.text n.toInt ++ rest
  | .property name, rest => Quoted.encode name.toList ++ rest

end

/-- The canonical text of an expression, without brackets around it. -/
def Expr.text (e : Expr) : String :=
  String.ofList (e.put [])

/-- The canonical text of a call. -/
def Call.text (c : Call) : String :=
  String.ofList (c.put [])

/-- The canonical text of an argument. -/
def Argument.text (a : Argument) : String :=
  String.ofList (a.put [])

/-- The canonical text of an accessor. -/
def Step.chainText (steps : List Step) : String :=
  String.ofList (Step.putAll steps [])

/-- The canonical text of a step. -/
def Step.text (s : Step) : String :=
  String.ofList (s.put [])

/-- The canonical text of an index, without its brackets. -/
def Index.text (i : Index) : String :=
  String.ofList (i.put [])

/-- The characters of the canonical text of a statement. -/
def Statement.chars : Statement → Text
  | .escapedLiteral text => '[' :: text.toList
  | .expression e => '[' :: e.put [']']
  | .stringLiteral text => text.toList

/-- The canonical text of a statement. -/
def Statement.text (s : Statement) : String :=
  String.ofList s.chars

end BracketExpr
