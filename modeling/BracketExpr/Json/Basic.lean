import BracketExpr.Lexeme.Boolean
import BracketExpr.Lexeme.Numeral

/-!
# JSON values and their text

JSON values with integer numbers, and with the fields of an object in the order in which they are
written. A layout decides where the text of a value has blanks: nowhere, or a line for each item
and field with an indentation of two spaces for each level.
-/

namespace BracketExpr

/-- A JSON value. -/
inductive Json where
  | str (s : String)
  | num (n : Int)
  | bool (b : Bool)
  | arr (items : List Json)
  /-- An object, as the list of its fields. -/
  | obj (fields : List (String × Json))

namespace Json

/-- Where the text of a value has blanks. -/
inductive Layout where
  /-- Nowhere. -/
  | compact
  /-- Each item and field stands on a line of its own. -/
  | indented
  deriving DecidableEq, Repr

namespace Layout

/-- What separates the brackets and items of a list: nothing, or a line feed and the indentation
of a nesting level. -/
def lineBreak : Layout → (level : Nat) → Text
  | compact, _ => []
  | indented, level => '\n' :: List.replicate (2 * level) ' '

/-- What separates the key of a field from its value. -/
def colon : Layout → Text
  | compact => [':']
  | indented => [':', ' ']

end Layout

/-- The character of a hexadecimal digit, in lower case. -/
def hexDigit (n : Nat) : Char :=
  Nat.digitChar (n % 16)

/-- A character inside a string. Quotes, backslashes and control characters are escaped, with
a short form for those that have one. -/
def escape (c : Char) : Text :=
  if c = '"' then ['\\', '"']
  else if c = '\\' then ['\\', '\\']
  else if c = '\x08' then ['\\', 'b']
  else if c = '\x0c' then ['\\', 'f']
  else if c = '\n' then ['\\', 'n']
  else if c = '\r' then ['\\', 'r']
  else if c = '\t' then ['\\', 't']
  else if c.toNat < 0x20 then ['\\', 'u', '0', '0', hexDigit (c.toNat / 16), hexDigit c.toNat]
  else [c]

/-- Puts a text, as the inside of a string, in front of a text. -/
def putEscaped : Text → Text → Text
  | [], rest => rest
  | c :: s, rest => escape c ++ putEscaped s rest

/-- Puts a string in front of a text. -/
def putString (s : String) (rest : Text) : Text :=
  '"' :: putEscaped s.toList ('"' :: rest)

mutual

/-- Puts the text of a value at the given nesting level in front of a text. -/
def put (layout : Layout) (level : Nat) : Json → Text → Text
  | .str s, rest => putString s rest
  | .num n, rest => Numeral.text n ++ rest
  | .bool b, rest => booleanText b ++ rest
  | .arr [], rest => '[' :: ']' :: rest
  | .arr (j :: items), rest =>
    '[' :: (layout.lineBreak (level + 1) ++
      put layout (level + 1) j (putItems layout (level + 1) items
        (layout.lineBreak level ++ ']' :: rest)))
  | .obj [], rest => '\x7b' :: '\x7d' :: rest
  | .obj ((key, j) :: fields), rest =>
    '\x7b' :: (layout.lineBreak (level + 1) ++
      putString key (layout.colon ++
        put layout (level + 1) j (putFields layout (level + 1) fields
          (layout.lineBreak level ++ '\x7d' :: rest))))

/-- Puts the text of the items after the first of a list in front of a text. -/
def putItems (layout : Layout) (level : Nat) : List Json → Text → Text
  | [], rest => rest
  | j :: items, rest =>
    ',' :: (layout.lineBreak level ++ put layout level j (putItems layout level items rest))

/-- Puts the text of the fields after the first of an object in front of a text. -/
def putFields (layout : Layout) (level : Nat) : List (String × Json) → Text → Text
  | [], rest => rest
  | (key, j) :: fields, rest =>
    ',' :: (layout.lineBreak level ++
      putString key (layout.colon ++ put layout level j (putFields layout level fields rest)))

end

/-- The text of a value in the given layout. -/
def text (layout : Layout) (j : Json) : String :=
  String.ofList (j.put layout 0 [])

end Json

end BracketExpr
