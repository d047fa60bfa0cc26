import BracketExpr.Json.Basic
import BracketExpr.Tree.Basic

/-!
# Trees as JSON

Each choice of a tree becomes an object with the name of the choice under `type` and its content
under `value`. Calls and expressions become objects of their parts, and an expression without steps
has no `accessor` field.
-/

namespace BracketExpr

/-- A choice: its name and its content. -/
def Json.choice (name : String) (value : Json) : Json :=
  .obj [("type", .str name), ("value", value)]

mutual

/-- The JSON value of an expression. -/
def Expr.toJson : Expr → Json
  | ⟨call, []⟩ => .obj [("call", call.toJson)]
  | ⟨call, step :: steps⟩ =>
    .obj [("call", call.toJson), ("accessor", .arr (step.toJson :: Step.allToJson steps))]

/-- The JSON value of a call. -/
def Call.toJson : Call → Json
  | ⟨name, args⟩ => .obj [("name", .str name), ("args", .arr (Argument.allToJson args))]

/-- The JSON values of arguments. -/
def Argument.allToJson : List Argument → List Json
  | [] => []
  | a :: args => a.toJson :: Argument.allToJson args

/-- The JSON value of an argument. -/
def Argument.toJson : Argument → Json
  | .expr e => .choice "expr" e.toJson
  | .str s => .choice "str" (.str s)
  | .num n => .choice "num" (.num n.toInt)
  | .bool b => .choice "bool" (.bool b)

/-- The JSON values of steps. -/
def Step.allToJson : List Step → List Json
  | [] => []
  | s :: steps => s.toJson :: Step.allToJson steps

/-- The JSON value of a step. -/
def Step.toJson : Step → Json
  | .member name => .choice "member" (.str name)
  | .index i => .choice "index" i.toJson

/-- The JSON value of an index. -/
def Index.toJson : Index → Json
  | .expr e => .choice "expr" e.toJson
  | .num n => .choice "num" (.num n.toInt)
  | .property name => .choice "propertyName" (.str name)

end

/-- The JSON value of an accessor. -/
def Step.chainToJson (steps : List Step) : Json :=
  .arr (Step.allToJson steps)

/-- The JSON value of a statement. -/
def Statement.toJson : Statement → Json
  | .escapedLiteral text => .choice "escapedLiteral" (.str text)
  | .expression e => .choice "expression" e.toJson
  | .stringLiteral text => .choice "stringLiteral" (.str text)

end BracketExpr
