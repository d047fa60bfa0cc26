import BracketExpr.Tree.Production

/-!
# Simulations between readers

Productions are programs over the operations of a lexer. If a relation between the readers of two
lexers holds between their operations, and if sequences and chains keep it, then it holds between
the productions as well, whatever readers of nested expressions they are built around. Two ways of
reading expressions are compared here once and for all: what is left to show of them is that they
agree on single operations.
-/

namespace BracketExpr

open Production

/-- What stands opposite to an item is one that is related to it. -/
theorem exists_of_rel_some {α β : Type} {R : α → β → Prop} {x : Option α} {b : β}
    (h : Option.Rel R x (some b)) : ∃ a, x = some a ∧ R a b := by
  cases h with
  | some hab => exact ⟨_, rfl, hab⟩

/-- Where there is no item on one side, there is none on the other. -/
theorem eq_none_of_rel_none {α β : Type} {R : α → β → Prop} {x : Option α}
    (h : Option.Rel R x none) : x = none := by
  cases h
  rfl

/-- A relation between the readers of two lexers that holds between their operations and is kept by
sequences and chains. -/
structure Simulation (m m' : Type → Type) [Monad m] [Lexer m] [Monad m'] [Lexer m'] where
  /-- The reader on the left does what the one on the right does. -/
  Rel {α : Type} : m α → m' α → Prop
  pure {α : Type} (a : α) : Rel (Pure.pure a) (Pure.pure a)
  bind {α β : Type} {r : m α} {r' : m' α} {f : α → m β} {f' : α → m' β} :
    Rel r r' → (∀ a, Rel (f a) (f' a)) → Rel (r >>= f) (r' >>= f')
  lex {α : Type} (op : Lexing α) : Rel (Lexer.lex op) (Lexer.lex op)
  fail {α : Type} (kind : FaultKind) : Rel (Lexer.fail kind : m α) (Lexer.fail kind)
  /-- Chains go on with the same characters, and with items that are related. -/
  chain {α : Type} {next : Char → Option (m α)} {next' : Char → Option (m' α)} :
    (∀ c, Option.Rel Rel (next c) (next' c)) → Rel (Lexer.chain next) (Lexer.chain next')

namespace Simulation

variable {m m' : Type → Type} [Monad m] [Lexer m] [Monad m'] [Lexer m'] (S : Simulation m m')
variable {α : Type} {nested : m Expr} {nested' : m' Expr}

/-! ## Tokens -/

/-- After an operation of the lexer. -/
theorem lex_bind {β : Type} (op : Lexing α) {f : α → m β} {f' : α → m' β}
    (hf : ∀ a, S.Rel (f a) (f' a)) : S.Rel (Lexer.lex op >>= f) (Lexer.lex op >>= f') :=
  S.bind (S.lex op) hf

/-- Looking for one character is an operation of the lexer and, where the character is missing, a
failure. -/
theorem expect (c : Char) (kind : FaultKind) : S.Rel (expect c kind) (expect c kind) := by
  refine S.lex_bind (.eat c) fun found => ?_
  cases found with
  | true => exact S.pure ()
  | false => exact S.fail kind

theorem calleeName : S.Rel calleeName calleeName := by
  refine S.lex_bind .functionName fun name? => ?_
  cases name? with
  | some name => exact S.pure name
  | none =>
    refine S.lex_bind .current fun c? => ?_
    cases c? with
    | none => exact S.fail _
    | some c => exact S.fail _

theorem memberStep : S.Rel memberStep memberStep := by
  refine S.lex_bind .skipBlanks fun _ => S.lex_bind .memberName fun name? => ?_
  cases name? with
  | some name => exact S.pure _
  | none => exact S.fail _

/-! ## Arguments and calls -/

/-- Related nested readers make related arguments. -/
theorem argument (h : S.Rel nested nested') : S.Rel (argument nested) (argument nested') := by
  refine S.lex_bind .current fun c? => ?_
  cases c? with
  | none => exact S.fail _
  | some c =>
    dsimp only
    by_cases hnumber : startsNumber c
    · rw [if_pos hnumber, if_pos hnumber]
      exact S.lex_bind .number fun n => S.pure _
    rw [if_neg hnumber, if_neg hnumber]
    by_cases hquote : c = '\x27'
    · rw [if_pos hquote, if_pos hquote]
      exact S.lex_bind .quoted fun v => S.pure _
    rw [if_neg hquote, if_neg hquote]
    refine S.lex_bind .atCall fun isCall => ?_
    cases isCall with
    | true => exact S.bind h fun e => S.pure _
    | false =>
      refine S.lex_bind .boolean fun b? => ?_
      cases b? with
      | some b => exact S.pure _
      | none => exact S.fail _

/-- A comma is followed by related arguments on both sides, and anything else ends both lists. -/
theorem furtherArgument (h : S.Rel nested nested') (c : Char) :
    Option.Rel S.Rel (furtherArgument nested c) (furtherArgument nested' c) := by
  rw [Production.furtherArgument, Production.furtherArgument]
  split
  · apply Option.Rel.some
    refine S.lex_bind .skipBlanks fun _ => S.bind (S.argument h) fun a => ?_
    exact S.lex_bind .skipBlanks fun _ => S.pure a
  · exact .none

theorem arguments (h : S.Rel nested nested') : S.Rel (arguments nested) (arguments nested') := by
  refine S.bind (S.argument h) fun a => S.lex_bind .skipBlanks fun _ => ?_
  exact S.bind (S.chain (S.furtherArgument h)) fun args => S.pure (a :: args)

theorem argumentList (h : S.Rel nested nested') :
    S.Rel (argumentList nested) (argumentList nested') := by
  refine S.lex_bind .current fun c? => ?_
  cases c? with
  | none => exact S.pure []
  | some c =>
    dsimp only
    split
    · exact S.pure []
    · exact S.arguments h

theorem call (h : S.Rel nested nested') : S.Rel (call nested) (call nested') := by
  refine S.bind S.calleeName fun name => S.lex_bind .skipBlanks fun _ => ?_
  refine S.bind (S.expect _ _) fun _ => S.lex_bind .skipBlanks fun _ => ?_
  refine S.bind (S.argumentList h) fun args => S.lex_bind .skipBlanks fun _ => ?_
  exact S.bind (S.expect _ _) fun _ => S.pure _

/-! ## Steps -/

theorem index (h : S.Rel nested nested') : S.Rel (index nested) (index nested') := by
  refine S.lex_bind .current fun c? => ?_
  cases c? with
  | none => exact S.fail _
  | some c =>
    refine S.lex_bind .atCall fun isCall => ?_
    cases isCall with
    | true => exact S.bind h fun e => S.pure _
    | false =>
      rw [if_neg Bool.false_ne_true, if_neg Bool.false_ne_true]
      by_cases hnumber : startsNumber c
      · rw [if_pos hnumber, if_pos hnumber]
        exact S.lex_bind .number fun n => S.pure _
      rw [if_neg hnumber, if_neg hnumber]
      split
      · exact S.lex_bind .quoted fun v => S.pure _
      · exact S.fail _

theorem indexStep (h : S.Rel nested nested') : S.Rel (indexStep nested) (indexStep nested') := by
  refine S.lex_bind .skipBlanks fun _ => S.bind (S.index h) fun i => ?_
  exact S.lex_bind .skipBlanks fun _ => S.bind (S.expect _ _) fun _ => S.pure _

/-- A point or a bracket starts related steps on both sides, and anything else ends both
accessors. -/
theorem furtherStep (h : S.Rel nested nested') (c : Char) :
    Option.Rel S.Rel (furtherStep nested c) (furtherStep nested' c) := by
  rw [Production.furtherStep, Production.furtherStep]
  split
  · apply Option.Rel.some
    exact S.bind S.memberStep fun x => S.lex_bind .skipBlanks fun _ => S.pure x
  · split
    · apply Option.Rel.some
      exact S.bind (S.indexStep h) fun x => S.lex_bind .skipBlanks fun _ => S.pure x
    · exact .none

theorem steps (h : S.Rel nested nested') : S.Rel (steps nested) (steps nested') :=
  S.chain (S.furtherStep h)

/-! ## Expressions -/

/-- Around related readers of nested expressions, expressions are read by related readers. -/
theorem expressionOver (h : S.Rel nested nested') :
    S.Rel (expressionOver nested) (expressionOver nested') := by
  refine S.lex_bind .skipBlanks fun _ => S.bind (S.call h) fun c => ?_
  exact S.lex_bind .skipBlanks fun _ => S.bind (S.steps h) fun xs => S.pure _

/-- Related expressions are related between their brackets. -/
theorem enclosing {whole : m Expr} {whole' : m' Expr} (h : S.Rel whole whole') :
    S.Rel (enclosing whole) (enclosing whole') := by
  refine S.bind h fun e => S.lex_bind .skipBlanks fun _ => S.lex_bind .current fun c? => ?_
  cases c? with
  | none => exact S.fail _
  | some c =>
    dsimp only
    split
    · refine S.lex_bind .advance fun _ => S.lex_bind .current fun d? => ?_
      cases d? with
      | none => exact S.pure e
      | some d => exact S.fail _
    · exact S.fail _

end Simulation

end BracketExpr
