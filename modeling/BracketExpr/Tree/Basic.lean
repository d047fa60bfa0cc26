/-!
# Expression trees

An expression is a call, optionally followed by an accessor: a chain of member and index steps
applied to the result of the call. Arguments are nested expressions, quoted texts, numbers or
booleans; an index is a nested expression, a number or a quoted property name. A statement is a
whole configuration value: one expression or a literal.

Trees hold arbitrary strings as names. Which of them can be written down is a matter of the
grammar.
-/

namespace BracketExpr

mutual

/-- A call and the steps applied to its result, in the order of their application. An expression
without steps has no accessor. -/
structure Expr where
  call : Call
  accessor : List Step

/-- A function name and its arguments. -/
structure Call where
  name : String
  args : List Argument

/-- An argument of a call. -/
inductive Argument where
  | expr (e : Expr)
  | str (s : String)
  | num (n : Int64)
  | bool (b : Bool)

/-- One step into the result of a call. -/
inductive Step where
  | member (name : String)
  | index (i : Index)

/-- What an index step is indexed by. -/
inductive Index where
  | expr (e : Expr)
  | num (n : Int64)
  | property (name : String)

end

/-- What a configuration value is. -/
inductive Statement where
  /-- A text that is escaped because it starts with a bracket. -/
  | escapedLiteral (text : String)
  | expression (e : Expr)
  /-- A text that stands for itself. -/
  | stringLiteral (text : String)

namespace Statement

/-- The expression that a statement is, if it is one. -/
def expression? : Statement → Option Expr
  | expression e => some e
  | escapedLiteral _ | stringLiteral _ => none

/-- Whether a statement is a literal. -/
def isLiteral : Statement → Bool
  | expression _ => false
  | escapedLiteral _ | stringLiteral _ => true

end Statement

end BracketExpr
