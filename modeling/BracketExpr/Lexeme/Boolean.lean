import BracketExpr.Reader

/-!
# Booleans

The words `true` and `false` are booleans where they stand alone: in front of another word
character they are the start of a longer word.
-/

namespace BracketExpr

/-- Whether the word `w` stands at the start of a text and ends there. -/
def isWordAt (w s : Text) : Bool :=
  w.isPrefixOf s && !(s.drop w.length).head?.any isWordChar

/-- The spelling of a boolean. -/
def booleanText : Bool → Text
  | true => ['t', 'r', 'u', 'e']
  | false => ['f', 'a', 'l', 's', 'e']

namespace Reader

/-- Reads a boolean; a text that starts with none is left as it is. -/
def boolean : Reader (Option Bool) where
  read s :=
    if isWordAt (booleanText true) s then .done (some true) (s.drop (booleanText true).length)
    else if isWordAt (booleanText false) s then
      .done (some false) (s.drop (booleanText false).length)
    else .done none s
  within s := by
    split
    · exact List.drop_suffix _ s
    · split
      · exact List.drop_suffix _ s
      · exact List.suffix_refl s

end Reader

end BracketExpr
