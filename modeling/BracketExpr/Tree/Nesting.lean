import BracketExpr.Tree.Basic

/-!
# Nested expressions

Expressions nest in two places: as arguments of a call and as indices of an accessor. The depth of
an expression and the names of the functions it calls go through both.
-/

namespace BracketExpr

/-! ## Depth -/


mutual

/-- The number of expressions on the longest path from an expression into its nested ones. -/
def Expr.depth : Expr → Nat
  | ⟨call, accessor⟩ => max call.depth (Step.maxDepth accessor) + 1

/-- The depth of the deepest expression among the arguments of a call. -/
def Call.depth : Call → Nat
  | ⟨_, args⟩ => Argument.maxDepth args

/-- The depth of the deepest expression among some arguments, 0 if there is none. -/
def Argument.maxDepth : List Argument → Nat
  | [] => 0
  | a :: args => max a.depth (Argument.maxDepth args)

/-- The depth of the expression that an argument is, 0 if it is none. -/
def Argument.depth : Argument → Nat
  | .expr e => e.depth
  | .str _ | .num _ | .bool _ => 0

/-- The depth of the deepest expression among the indices of some steps, 0 if there is none. -/
def Step.maxDepth : List Step → Nat
  | [] => 0
  | s :: steps => max s.depth (Step.maxDepth steps)

/-- The depth of the expression that a step is indexed by, 0 if there is none. -/
def Step.depth : Step → Nat
  | .member _ => 0
  | .index i => i.depth

/-- The depth of the expression that an index is, 0 if it is none. -/
def Index.depth : Index → Nat
  | .expr e => e.depth
  | .num _ | .property _ => 0

end

/-! ## Function names -/

mutual

/-- The names of all functions that an expression calls, in the order in which they are written:
a call before its arguments, and these before the indices of its accessor. -/
def Expr.functionNames : Expr → List String
  | ⟨call, accessor⟩ => call.functionNames ++ Step.allFunctionNames accessor

/-- The name of a call and the names in its arguments. -/
def Call.functionNames : Call → List String
  | ⟨name, args⟩ => name :: Argument.allFunctionNames args

/-- The names of all functions that some arguments call. -/
def Argument.allFunctionNames : List Argument → List String
  | [] => []
  | a :: args => a.functionNames ++ Argument.allFunctionNames args

/-- The names of all functions that an argument calls. -/
def Argument.functionNames : Argument → List String
  | .expr e => e.functionNames
  | .str _ | .num _ | .bool _ => []

/-- The names of all functions that the indices of some steps call. -/
def Step.allFunctionNames : List Step → List String
  | [] => []
  | s :: steps => s.functionNames ++ Step.allFunctionNames steps

/-- The names of all functions that the index of a step calls. -/
def Step.functionNames : Step → List String
  | .member _ => []
  | .index i => i.functionNames

/-- The names of all functions that an index calls. -/
def Index.functionNames : Index → List String
  | .expr e => e.functionNames
  | .num _ | .property _ => []

end

/-- The names of all functions that a statement calls; a literal calls none. -/
def Statement.functionNames : Statement → List String
  | .expression e => e.functionNames
  | .escapedLiteral _ | .stringLiteral _ => []

end BracketExpr
