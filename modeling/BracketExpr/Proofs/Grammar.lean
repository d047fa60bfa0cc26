import BracketExpr.Lexeme.Boolean
import BracketExpr.Tree.Basic

/-!
# The grammar of expressions

The language of expressions, defined without a reader: which texts are expressions, and which tree
each of them has. The lexemes come first: blanks, function names, member names, numerals and quoted
texts, each as a predicate on texts, with the value that the text stands for where it has one. The
productions follow. Blanks may stand between any two tokens and nowhere else.

Nothing here speaks about longest matches or about what follows a text. That the reader finds the
intended cut in front of any continuation is a theorem about the reader.
-/

namespace BracketExpr

/-! ## Lexemes -/

/-- A text of blanks only. -/
def Text.IsBlank (w : Text) : Prop :=
  ∀ c ∈ w, isBlank c

/-- A text of one or more characters that all belong to the class `p`. -/
def Text.IsRun (p : Char → Bool) (w : Text) : Prop :=
  w ≠ [] ∧ ∀ c ∈ w, p c

/-- Function names: a letter and word characters, with at most one dotted suffix of at least one
word character. -/
inductive IsFunctionName : Text → Prop where
  | plain {c : Char} {w : Text} (hc : c.isAlpha) (hw : ∀ d ∈ w, isWordChar d) :
    IsFunctionName (c :: w)
  | dotted {c : Char} {w v : Text} (hc : c.isAlpha) (hw : ∀ d ∈ w, isWordChar d)
    (hv : v.IsRun isWordChar) : IsFunctionName (c :: (w ++ '.' :: v))

/-- Member names: one or more letters, digits, underscores and hyphens. -/
def IsMemberName (w : Text) : Prop :=
  w.IsRun isMemberChar

/-- The text `w` is a numeral for the 64-bit number `n`: an optional minus sign and one or more
decimal digits, whose value is in range because it is that of `n`. -/
inductive IsNumeral : Text → Int64 → Prop where
  | natural {w : Text} {n : Int64} (hw : w.IsRun Char.isDigit)
    (hn : n.toInt = Nat.ofDigitChars 10 w 0) : IsNumeral w n
  | negative {w : Text} {n : Int64} (hw : w.IsRun Char.isDigit)
    (hn : n.toInt = -(Nat.ofDigitChars 10 w 0 : Int)) : IsNumeral ('-' :: w) n

/-- The text `w` is what may stand between the quotes of a quoted text, and it stands for `v`: each
character other than a quote for itself, each pair of quotes for one. -/
inductive IsQuotedBody : Text → Text → Prop where
  | nil : IsQuotedBody [] []
  | char {c : Char} {w v : Text} (hc : c ≠ '\x27') (h : IsQuotedBody w v) :
    IsQuotedBody (c :: w) (c :: v)
  | quote {w v : Text} (h : IsQuotedBody w v) :
    IsQuotedBody ('\x27' :: '\x27' :: w) ('\x27' :: v)

/-- The text `w` is a quoted text that stands for `v`. -/
def IsQuoted (w v : Text) : Prop :=
  ∃ b, w = '\x27' :: (b ++ ['\x27']) ∧ IsQuotedBody b v

/-! ## Productions -/

namespace Grammar

mutual

/-- An expression: a function name, its arguments in parentheses, and the steps applied to the
result. -/
inductive Expression : Text → Expr → Prop where
  | mk {name : String} {w₁ w₂ w₃ a t : Text} {args : List Argument} {steps : List Step}
    (hname : IsFunctionName name.toList) (hw₁ : w₁.IsBlank) (hw₂ : w₂.IsBlank)
    (hargs : Arguments a args) (hw₃ : w₃.IsBlank) (hsteps : Steps t steps) :
    Expression (name.toList ++ (w₁ ++ '(' :: (w₂ ++ (a ++ (w₃ ++ ')' :: t))))) ⟨⟨name, args⟩, steps⟩

/-- An argument list without its parentheses: nothing, or arguments separated by commas. -/
inductive Arguments : Text → List Argument → Prop where
  | nil : Arguments [] []
  | cons {s t : Text} {a : Argument} {args : List Argument}
    (ha : Arg s a) (hargs : FurtherArguments t args) : Arguments (s ++ t) (a :: args)

/-- The arguments after the first, each after a comma. -/
inductive FurtherArguments : Text → List Argument → Prop where
  | nil : FurtherArguments [] []
  | cons {w₁ w₂ s t : Text} {a : Argument} {args : List Argument}
    (hw₁ : w₁.IsBlank) (hw₂ : w₂.IsBlank) (ha : Arg s a) (hargs : FurtherArguments t args) :
    FurtherArguments (w₁ ++ ',' :: (w₂ ++ (s ++ t))) (a :: args)

/-- An argument: a numeral, a quoted text, a boolean or an expression. -/
inductive Arg : Text → Argument → Prop where
  | num {s : Text} {n : Int64} (h : IsNumeral s n) : Arg s (.num n)
  | str {s : Text} {v : String} (h : IsQuoted s v.toList) : Arg s (.str v)
  | bool (b : Bool) : Arg (booleanText b) (.bool b)
  | expr {s : Text} {e : Expr} (h : Expression s e) : Arg s (.expr e)

/-- Any number of steps. -/
inductive Steps : Text → List Step → Prop where
  | nil : Steps [] []
  | cons {w s t : Text} {x : Step} {xs : List Step}
    (hw : w.IsBlank) (hx : AccessStep s x) (hxs : Steps t xs) : Steps (w ++ (s ++ t)) (x :: xs)

/-- A step: a point and a member name, or an index in brackets. -/
inductive AccessStep : Text → Step → Prop where
  | member {w : Text} {name : String} (hw : w.IsBlank) (hname : IsMemberName name.toList) :
    AccessStep ('.' :: (w ++ name.toList)) (.member name)
  | index {w₁ w₂ s : Text} {i : Index} (hw₁ : w₁.IsBlank) (hi : IndexValue s i)
    (hw₂ : w₂.IsBlank) : AccessStep ('[' :: (w₁ ++ (s ++ (w₂ ++ [']'])))) (.index i)

/-- What stands between the brackets of an index: an expression, a numeral or a quoted text. -/
inductive IndexValue : Text → Index → Prop where
  | expr {s : Text} {e : Expr} (h : Expression s e) : IndexValue s (.expr e)
  | num {s : Text} {n : Int64} (h : IsNumeral s n) : IndexValue s (.num n)
  | property {s : Text} {v : String} (h : IsQuoted s v.toList) : IndexValue s (.property v)

end

/-- A statement that is an expression: the expression between brackets, with blanks inside them. -/
def Enclosed (s : Text) (e : Expr) : Prop :=
  ∃ w₁ t w₂ : Text, s = '[' :: (w₁ ++ (t ++ (w₂ ++ [']']))) ∧
    w₁.IsBlank ∧ Expression t e ∧ w₂.IsBlank

end Grammar

end BracketExpr
