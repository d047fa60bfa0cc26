import BracketExpr.Lexeme.Boolean
import BracketExpr.Lexeme.Name
import BracketExpr.Lexeme.Numeral
import BracketExpr.Lexeme.Quoted
import BracketExpr.Tree.Production

/-!
# Reading expressions

The productions of expressions at readers of texts. `Reader.expression` ties the knot by recursion
on the number of levels that may still be opened.
-/

namespace BracketExpr

namespace Reader

/-- The operations of a lexer at the start of a text. -/
def lexing {α : Type} : Lexing α → Reader α
  | .current => current
  | .advance => advance
  | .skipBlanks => skipBlanks
  | .eat c => eat c
  | .functionName => functionName
  | .memberName => memberName
  | .atCall => atCall
  | .number => number
  | .boolean => boolean
  | .quoted => quoted

instance : Lexer Reader where
  lex := lexing
  fail := fail
  chain := chain

/-! The operations of the lexer are the readers of the same names. -/

section

variable {α : Type}

@[simp]
theorem lex_current : (Lexer.lex .current : Reader (Option Char)) = current := rfl

@[simp]
theorem lex_advance : (Lexer.lex .advance : Reader Unit) = advance := rfl

@[simp]
theorem lex_skipBlanks : (Lexer.lex .skipBlanks : Reader Unit) = skipBlanks := rfl

@[simp]
theorem lex_eat (c : Char) : (Lexer.lex (.eat c) : Reader Bool) = eat c := rfl

@[simp]
theorem lex_functionName : (Lexer.lex .functionName : Reader (Option String)) = functionName := rfl

@[simp]
theorem lex_memberName : (Lexer.lex .memberName : Reader (Option String)) = memberName := rfl

@[simp]
theorem lex_atCall : (Lexer.lex .atCall : Reader Bool) = atCall := rfl

@[simp]
theorem lex_number : (Lexer.lex .number : Reader Int64) = number := rfl

@[simp]
theorem lex_boolean : (Lexer.lex .boolean : Reader (Option Bool)) = boolean := rfl

@[simp]
theorem lex_quoted : (Lexer.lex .quoted : Reader String) = quoted := rfl

@[simp]
theorem lexer_fail (kind : FaultKind) : (Lexer.fail kind : Reader α) = fail kind := rfl

@[simp]
theorem lexer_chain (next : Char → Option (Reader α)) : Lexer.chain next = chain next := rfl

end

/-- Reads an expression that may open at most `limit` levels of nesting, itself included. The
limit is checked before anything is read. -/
def expression : (limit : Nat) → Reader Expr
  | 0 => fail .maxDepthExceeded
  | limit + 1 => delay fun _ => Production.expressionOver (expression limit)

/-- A further level of nesting is a further layer around the reader of expressions. -/
theorem expression_succ (limit : Nat) :
    expression (limit + 1) = Production.expressionOver (expression limit) := rfl

/-- Reads an accessor that stands on its own. Expressions in its indices may open at most `limit`
levels of nesting. -/
def accessor (limit : Nat) : Reader (List Step) :=
  Production.steps (expression limit)

/-- Reads an expression up to the closing bracket that ends both it and the text. -/
def enclosed (limit : Nat) : Reader Expr :=
  Production.enclosing (expression limit)

end Reader

end BracketExpr
