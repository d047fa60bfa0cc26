import BracketExpr.Fault
import BracketExpr.Tree.Basic

/-!
# The productions of expressions

The grammar of expressions, with blanks allowed between any two tokens:

* an expression is a call followed by any number of steps;
* a call is a function name and its arguments, separated by commas, in parentheses;
* an argument is a number, a quoted text, a call with its steps, or a boolean;
* a step is a point and a member name, or an index in brackets;
* an index is a call with its steps, a number, or a quoted text.

Productions are programs over the operations of a lexer, whatever else a reader keeps track of
besides the text. So they stand here once, for readers of any kind `m`. Expressions nest as
arguments and as indices: readers of the parts of an expression take the reader of nested
expressions as their argument, and how deep expressions may nest is left to that reader.
-/

namespace BracketExpr

/-- The operations of a lexer, each with the type of what it gives. -/
inductive Lexing : Type → Type where
  /-- The current character, if the text has not ended. -/
  | current : Lexing (Option Char)
  /-- Move past the current character, if there is one. -/
  | advance : Lexing Unit
  /-- Move past all blanks that come next. -/
  | skipBlanks : Lexing Unit
  /-- Move past a character if it comes next, and tell whether it did. -/
  | eat (c : Char) : Lexing Bool
  /-- Read a function name; a text that starts with none is left as it is. -/
  | functionName : Lexing (Option String)
  /-- Read a member name; a text that starts with none is left as it is. -/
  | memberName : Lexing (Option String)
  /-- Whether a function name and, after blanks, an opening parenthesis come next. -/
  | atCall : Lexing Bool
  | number : Lexing Int64
  /-- Read a boolean; a text that starts with none is left as it is. -/
  | boolean : Lexing (Option Bool)
  | quoted : Lexing String

/-- Readers over a lexer. -/
class Lexer (m : Type → Type) where
  /-- Performs an operation of the lexer. -/
  lex {α : Type} (op : Lexing α) : m α
  /-- Fails at the current point, showing the current character. -/
  fail {α : Type} (kind : FaultKind) : m α
  /-- Reads items for as long as the next character opens one. The opening character is consumed
  and `next` tells how the item goes on, or `none` if the character opens no item. -/
  chain {α : Type} (next : Char → Option (m α)) : m (List α)

namespace Production

open Lexer (lex fail chain)

variable {m : Type → Type} [Monad m] [Lexer m]

/-- Moves past the character `c`, or fails with the given kind where something else comes next. -/
def expect (c : Char) (kind : FaultKind) : m Unit := do
  if ← lex (.eat c) then pure () else fail kind

/-- Reads one argument. A word is a call if an opening parenthesis follows it, and otherwise has
to be a boolean. -/
def argument (nested : m Expr) : m Argument := do
  match ← lex .current with
  | none => fail .unexpectedEndOfInput
  | some c =>
    if startsNumber c then
      return .num (← lex .number)
    else if c = '\x27' then
      return .str (← lex .quoted)
    else if ← lex .atCall then
      return .expr (← nested)
    else
      match ← lex .boolean with
      | some b => return .bool b
      | none => fail .invalidArgument

/-- How an argument list goes on after an argument and blanks: a comma opens the next argument. -/
def furtherArgument (nested : m Expr) (opening : Char) : Option (m Argument) :=
  if opening = ',' then
    some do
      lex .skipBlanks
      let a ← argument nested
      lex .skipBlanks
      return a
  else none

/-- Reads one or more arguments, separated by commas, and the blanks after them. -/
def arguments (nested : m Expr) : m (List Argument) := do
  let first ← argument nested
  lex .skipBlanks
  let further ← chain (furtherArgument nested)
  return first :: further

/-- Reads the name of the function that is called. -/
def calleeName : m String := do
  match ← lex .functionName with
  | some name => return name
  | none =>
    match ← lex .current with
    | none => fail .unexpectedEndOfInput
    | some _ => fail .invalidFunctionName

/-- Reads what stands between the parentheses of a call. The text may end there or the closing
parenthesis follow at once; otherwise there is at least one argument. -/
def argumentList (nested : m Expr) : m (List Argument) := do
  match ← lex .current with
  | none => return []
  | some c => if c = ')' then return [] else arguments nested

/-- Reads a call. -/
def call (nested : m Expr) : m Call := do
  let name ← calleeName
  lex .skipBlanks
  expect '(' .expectedOpenParen
  lex .skipBlanks
  let args ← argumentList nested
  lex .skipBlanks
  expect ')' .expectedCloseParen
  return ⟨name, args⟩

/-- Reads an index, without its brackets. -/
def index (nested : m Expr) : m Index := do
  match ← lex .current with
  | none => fail .unterminatedIndex
  | some c =>
    if ← lex .atCall then
      return .expr (← nested)
    else if startsNumber c then
      return .num (← lex .number)
    else if c = '\x27' then
      return .property (← lex .quoted)
    else
      fail .invalidIndexValue

/-- Reads a member step after its point. -/
def memberStep : m Step := do
  lex .skipBlanks
  match ← lex .memberName with
  | some name => return .member name
  | none => fail .invalidMemberName

/-- Reads an index step after its opening bracket. -/
def indexStep (nested : m Expr) : m Step := do
  lex .skipBlanks
  let i ← index nested
  lex .skipBlanks
  expect ']' .unterminatedIndex
  return .index i

/-- How an accessor goes on: a point opens a member step, a bracket an index step. Blanks after
the step belong to it. -/
def furtherStep (nested : m Expr) (opening : Char) : Option (m Step) :=
  if opening = '.' then
    some do
      let s ← memberStep
      lex .skipBlanks
      return s
  else if opening = '[' then
    some do
      let s ← indexStep nested
      lex .skipBlanks
      return s
  else none

/-- Reads any number of steps, and the blanks after them. -/
def steps (nested : m Expr) : m (List Step) :=
  chain (furtherStep nested)

/-- Reads an expression with `nested` as the reader of the expressions inside it. -/
def expressionOver (nested : m Expr) : m Expr := do
  lex .skipBlanks
  let c ← call nested
  lex .skipBlanks
  let a ← steps nested
  return ⟨c, a⟩

/-- Reads with `whole` an expression up to the closing bracket that ends both it and the text. -/
def enclosing (whole : m Expr) : m Expr := do
  let e ← whole
  lex .skipBlanks
  match ← lex .current with
  | none => fail .unexpectedEndOfInput
  | some c =>
    if c = ']' then
      lex .advance
      match ← lex .current with
      | none => return e
      | some _ => fail .trailingCharacters
    else
      fail .trailingCharacters

end Production

end BracketExpr
