/-!
# Texts

Statements are read as lists of characters. Positions in a text are byte offsets into its UTF-8
form, so every offset of the library is the byte length of a list of characters: the part of the
text that stands before the position.

The character classes of the expression language are ASCII classes: a character outside ASCII is
neither blank nor part of a name.
-/

namespace BracketExpr

/-- A text, as the list of its characters. -/
abbrev Text := List Char

/-- Blank characters may stand between any two tokens of an expression. -/
def isBlank (c : Char) : Bool :=
  c == ' ' || c == '\t' || c == '\r' || c == '\n'

/-- Word characters make up function names: ASCII letters and digits. -/
def isWordChar (c : Char) : Bool :=
  c.isAlphanum

/-- Member names use word characters, the underscore and the hyphen. -/
def isMemberChar (c : Char) : Bool :=
  isWordChar c || c == '_' || c == '-'

/-- A number starts with a digit or with its sign. -/
def startsNumber (c : Char) : Bool :=
  c.isDigit || c == '-'

namespace Text

/-- The number of bytes of the UTF-8 form of a text. -/
def byteLength : Text → Nat
  | [] => 0
  | c :: s => c.utf8Size + byteLength s

@[simp]
theorem byteLength_nil : byteLength [] = 0 := rfl

@[simp]
theorem byteLength_cons (c : Char) (s : Text) :
    byteLength (c :: s) = c.utf8Size + byteLength s := rfl

@[simp]
theorem byteLength_append (s t : Text) :
    byteLength (s ++ t) = byteLength s + byteLength t := by
  induction s with
  | nil => simp
  | cons c s ih => simp [ih, Nat.add_assoc]

/-- The longest part of the text, counted from its start, that fits into `n` bytes. Its byte
length is the largest character boundary at or before `n`. -/
def takeBytes : Nat → Text → Text
  | _, [] => []
  | n, c :: s => if c.utf8Size ≤ n then c :: takeBytes (n - c.utf8Size) s else []

/-- The text from byte offset `n` on, if `n` is a character boundary of the text. The end of
the text is one. -/
def dropBytes? : Nat → Text → Option Text
  | 0, s => some s
  | _ + 1, [] => none
  | n + 1, c :: s => if c.utf8Size ≤ n + 1 then dropBytes? (n + 1 - c.utf8Size) s else none

/-- The part of the text before its first line feed. -/
def firstLine (s : Text) : Text :=
  s.takeWhile (· != '\n')

/-- The part of the text after its last line feed. -/
def lastLine (s : Text) : Text :=
  (firstLine s.reverse).reverse

/-- The text from its first character on that is not blank. -/
def skipBlanks (s : Text) : Text :=
  s.dropWhile isBlank

end Text

end BracketExpr
