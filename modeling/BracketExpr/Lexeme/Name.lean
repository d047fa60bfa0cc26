import BracketExpr.Reader

/-!
# Names

Function names are a letter followed by letters and digits, with at most one dotted suffix of
letters and digits. Member names are letters, digits, underscores and hyphens in any order. Each
scan gives the longest name at the start of a text, and the empty text if there is none.
-/

namespace BracketExpr

/-- The longest run of word characters at the start of a text. -/
def wordAt (s : Text) : Text :=
  s.takeWhile isWordChar

/-- The dotted suffix of a function name at the start of a text: a point and the word after it. A
point that no word follows is not part of the name. -/
def dottedSuffixAt : Text → Text
  | [] => []
  | c :: s => if c = '.' && s.head?.any isWordChar then c :: wordAt s else []

/-- The longest function name at the start of a text, empty if the text starts with none. -/
def functionNameAt (s : Text) : Text :=
  if s.head?.any Char.isAlpha then wordAt s ++ dottedSuffixAt (s.drop (wordAt s).length) else []

/-- The longest member name at the start of a text, empty if the text starts with none. -/
def memberNameAt (s : Text) : Text :=
  s.takeWhile isMemberChar

/-- Whether a text starts with a function name and, after blanks, an opening parenthesis. -/
def isCallAt (s : Text) : Bool :=
  let name := functionNameAt s
  !name.isEmpty && (Text.skipBlanks (s.drop name.length)).head? == some '('

namespace Reader

/-- Reads a function name; a text that starts with none is left as it is. The words `true` and
`false` are function names too. -/
def functionName : Reader (Option String) :=
  lexeme functionNameAt

/-- Reads a member name; a text that starts with none is left as it is. -/
def memberName : Reader (Option String) :=
  lexeme memberNameAt

/-- Looks ahead for a call. Nothing is consumed. -/
def atCall : Reader Bool :=
  lookAhead isCallAt

end Reader

end BracketExpr
