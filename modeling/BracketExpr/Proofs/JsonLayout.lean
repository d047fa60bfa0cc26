import BracketExpr.Json.Tree
import BracketExpr.Proofs.RoundTrip
import Mathlib.Tactic.SplitIfs

/-!
# The two layouts of a JSON text

The indented text of a value is its compact text with spaces and line feeds between the tokens. A
scan that only knows where string literals start and end, and that a backslash in a literal takes
the quote behind it for a part of the literal, finds these blanks: deleting them gives the compact
text. No blank in a string is lost, because a string ends for the scan where it was written to end,
and none between tokens is kept.
-/

namespace BracketExpr

namespace Json

/-! ## The scan -/

/-- Where in a JSON text a scan stands. -/
inductive Place where
  | outside
  /-- In a string literal. -/
  | inside
  /-- In a string literal, behind the backslash of an escape. -/
  | escaped
  deriving DecidableEq, Repr

/-- The place behind a character. -/
def Place.next : Place → Char → Place
  | outside, c => if c = '"' then inside else outside
  | inside, c => if c = '\\' then escaped else if c = '"' then outside else inside
  | escaped, _ => inside

/-- Whether a character may separate tokens in the indented layout. -/
def isLayoutBlank (c : Char) : Bool :=
  c == ' ' || c == '\n'

/-- Deletes the spaces and line feeds of a text that stand outside of string literals, where the
text itself starts at the given place. -/
def squeezeFrom (place : Place) : Text → Text
  | [] => []
  | c :: s =>
    if place = .outside ∧ isLayoutBlank c then squeezeFrom place s
    else c :: squeezeFrom (place.next c) s

/-- Deletes the spaces and line feeds of a JSON text that stand outside of string literals. -/
def squeeze (text : String) : String :=
  String.ofList (squeezeFrom .outside text.toList)

/-! ## Tokens -/

/-- Characters that are kept and that start no string literal. -/
def IsTokenText (w : Text) : Prop :=
  ∀ c ∈ w, isLayoutBlank c = false ∧ c ≠ '"'

instance (w : Text) : Decidable (IsTokenText w) :=
  List.decidableBAll _ w

/-- Outside of strings, a character that is neither blank nor a quote stays. -/
theorem squeezeFrom_outside_cons {c : Char} (hblank : isLayoutBlank c = false) (hquote : c ≠ '"')
    (s : Text) : squeezeFrom .outside (c :: s) = c :: squeezeFrom .outside s := by
  rw [squeezeFrom, if_neg (by simp [hblank]), Place.next, if_neg hquote]

theorem squeezeFrom_token_append {w : Text} (hw : IsTokenText w) (s : Text) :
    squeezeFrom .outside (w ++ s) = w ++ squeezeFrom .outside s := by
  induction w with
  | nil => rfl
  | cons c w ih =>
    obtain ⟨⟨hblank, hquote⟩, hw⟩ := List.forall_mem_cons.1 hw
    rw [List.cons_append, squeezeFrom_outside_cons hblank hquote, ih hw, List.cons_append]

/-- Blanks outside of strings go. -/
theorem squeezeFrom_blank_append {w : Text} (hw : ∀ c ∈ w, isLayoutBlank c) (s : Text) :
    squeezeFrom .outside (w ++ s) = squeezeFrom .outside s := by
  induction w with
  | nil => rfl
  | cons c w ih =>
    obtain ⟨hblank, hw⟩ := List.forall_mem_cons.1 hw
    rw [List.cons_append, squeezeFrom, if_pos ⟨rfl, hblank⟩, ih hw]

theorem isTokenText_of_isDigit {w : Text} (h : ∀ c ∈ w, c.isDigit) : IsTokenText w := by
  intro c hc
  have hne (d : Char) (hd : d.isDigit = false) : c ≠ d := by
    rintro rfl
    rw [h c hc] at hd
    cases hd
  exact ⟨by simp [isLayoutBlank, hne ' ' (by decide), hne '\n' (by decide)], hne '"' (by decide)⟩

theorem isTokenText_text (k : Int) : IsTokenText (Numeral.text k) := by
  have hnatural (n : Nat) : IsTokenText (Numeral.naturalText n) :=
    isTokenText_of_isDigit (Numeral.isRun_naturalText n).2
  cases k with
  | ofNat n => exact hnatural n
  | negSucc n => exact List.forall_mem_cons.2 ⟨by decide, hnatural (n + 1)⟩

theorem isTokenText_booleanText (b : Bool) : IsTokenText (booleanText b) := by
  cases b <;> decide

/-! ## Strings -/

/-- Inside a string every other character stays, blanks as well. -/
theorem squeezeFrom_inside_cons {c : Char} (hbackslash : c ≠ '\\') (hquote : c ≠ '"') (s : Text) :
    squeezeFrom .inside (c :: s) = c :: squeezeFrom .inside s := by
  rw [squeezeFrom, if_neg (by simp), Place.next, if_neg hbackslash, if_neg hquote]

/-- An escape has two characters that are read together. -/
theorem squeezeFrom_inside_backslash (c : Char) (s : Text) :
    squeezeFrom .inside ('\\' :: c :: s) = '\\' :: c :: squeezeFrom .inside s := by
  rw [squeezeFrom, if_neg (by simp), Place.next, if_pos rfl, squeezeFrom, if_neg (by simp),
    Place.next]

/-- No hexadecimal digit is a special character. -/
theorem hexDigit_ne {d : Char} (hd : ∀ m < 16, Nat.digitChar m ≠ d) (n : Nat) : hexDigit n ≠ d :=
  hd _ (Nat.mod_lt n (by decide))

/-- An escape does not end the string it stands in. -/
theorem squeezeFrom_escape_append (c : Char) (s : Text) :
    squeezeFrom .inside (escape c ++ s) = escape c ++ squeezeFrom .inside s := by
  rw [escape]
  split_ifs with hquote hbackslash
  · exact squeezeFrom_inside_backslash _ s
  · exact squeezeFrom_inside_backslash _ s
  · exact squeezeFrom_inside_backslash _ s
  · exact squeezeFrom_inside_backslash _ s
  · exact squeezeFrom_inside_backslash _ s
  · exact squeezeFrom_inside_backslash _ s
  · exact squeezeFrom_inside_backslash _ s
  · -- The digits of a control character are none of the characters that the scan looks for.
    have hdigit (n : Nat) (s : Text) :
        squeezeFrom .inside (hexDigit n :: s) = hexDigit n :: squeezeFrom .inside s :=
      squeezeFrom_inside_cons (hexDigit_ne (by decide) n) (hexDigit_ne (by decide) n) s
    have hzero (s : Text) : squeezeFrom .inside ('0' :: s) = '0' :: squeezeFrom .inside s :=
      squeezeFrom_inside_cons (by decide) (by decide) s
    simp only [List.cons_append, List.nil_append, squeezeFrom_inside_backslash, hzero, hdigit]
  · exact squeezeFrom_inside_cons hbackslash hquote s

/-- The scan is outside again behind the quote that ends a string. -/
theorem squeezeFrom_putEscaped (s r : Text) :
    squeezeFrom .inside (putEscaped s ('"' :: r)) =
      putEscaped s ('"' :: squeezeFrom .outside r) := by
  induction s with
  | nil =>
    rw [putEscaped, putEscaped, squeezeFrom, if_neg (by simp)]
    rfl
  | cons c s ih => rw [putEscaped, putEscaped, squeezeFrom_escape_append, ih]

/-- Strings stay as they are, from quote to quote. -/
theorem squeezeFrom_putString (s : String) (r : Text) :
    squeezeFrom .outside (putString s r) = putString s (squeezeFrom .outside r) := by
  rw [putString, putString, ← squeezeFrom_putEscaped, squeezeFrom, if_neg (by decide)]
  rfl

/-! ## Values -/

section

variable (layout : Layout)

/-- Of a line break nothing stays. -/
theorem squeezeFrom_lineBreak_append (level : Nat) (s : Text) :
    squeezeFrom .outside (layout.lineBreak level ++ s) = squeezeFrom .outside s := by
  cases layout with
  | compact => rfl
  | indented =>
    refine squeezeFrom_blank_append (List.forall_mem_cons.2 ⟨rfl, fun c hc => ?_⟩) s
    rw [List.eq_of_mem_replicate hc]
    rfl

/-- Of a colon with its blank the colon stays. -/
theorem squeezeFrom_colon_append (s : Text) :
    squeezeFrom .outside (layout.colon ++ s) = ':' :: squeezeFrom .outside s := by
  cases layout with
  | compact => exact squeezeFrom_outside_cons rfl (by decide) s
  | indented =>
    rw [Layout.colon, List.cons_append, squeezeFrom_outside_cons rfl (by decide),
      squeezeFrom_blank_append (List.forall_mem_singleton.2 rfl)]

mutual

/-- Without the blanks between its tokens, the text of a value in front of `r` is the compact text
of the value, at any level of nesting. -/
theorem squeezeFrom_put (level level' : Nat) : ∀ (j : Json) (r : Text),
    squeezeFrom .outside (put layout level j r) =
      put .compact level' j (squeezeFrom .outside r)
  | .str s, r => by
    rw [put, put]
    exact squeezeFrom_putString s r
  | .num n, r => by
    rw [put, put]
    exact squeezeFrom_token_append (isTokenText_text n) r
  | .bool b, r => by
    rw [put, put]
    exact squeezeFrom_token_append (isTokenText_booleanText b) r
  | .arr [], r => by
    rw [put, put]
    exact squeezeFrom_token_append (w := ['[', ']']) (by decide) r
  | .arr (j :: items), r => by
    rw [put, put, squeezeFrom_outside_cons rfl (by decide), squeezeFrom_lineBreak_append,
      squeezeFrom_put (level + 1) (level' + 1) j, squeezeFrom_putItems (level + 1) (level' + 1),
      squeezeFrom_lineBreak_append, squeezeFrom_outside_cons rfl (by decide)]
    rfl
  | .obj [], r => by
    rw [put, put]
    exact squeezeFrom_token_append (w := ['\x7b', '\x7d']) (by decide) r
  | .obj ((key, j) :: fields), r => by
    rw [put, put, squeezeFrom_outside_cons rfl (by decide), squeezeFrom_lineBreak_append,
      squeezeFrom_putString, squeezeFrom_colon_append, squeezeFrom_put (level + 1) (level' + 1) j,
      squeezeFrom_putFields (level + 1) (level' + 1), squeezeFrom_lineBreak_append,
      squeezeFrom_outside_cons rfl (by decide)]
    rfl

/-- Of the items of a list only the line breaks between them go. -/
theorem squeezeFrom_putItems (level level' : Nat) : ∀ (items : List Json) (r : Text),
    squeezeFrom .outside (putItems layout level items r) =
      putItems .compact level' items (squeezeFrom .outside r)
  | [], r => by rw [putItems, putItems]
  | j :: items, r => by
    rw [putItems, putItems, squeezeFrom_outside_cons rfl (by decide),
      squeezeFrom_lineBreak_append, squeezeFrom_put level level' j,
      squeezeFrom_putItems level level']
    rfl

/-- Of the fields of an object only the line breaks between them and the blanks behind their colons
go. -/
theorem squeezeFrom_putFields (level level' : Nat) :
    ∀ (fields : List (String × Json)) (r : Text),
      squeezeFrom .outside (putFields layout level fields r) =
        putFields .compact level' fields (squeezeFrom .outside r)
  | [], r => by rw [putFields, putFields]
  | (key, j) :: fields, r => by
    rw [putFields, putFields, squeezeFrom_outside_cons rfl (by decide),
      squeezeFrom_lineBreak_append, squeezeFrom_putString, squeezeFrom_colon_append,
      squeezeFrom_put level level' j, squeezeFrom_putFields level level']
    rfl

end

/-- The compact text has no blanks between tokens, and the indented text has nothing else more. -/
theorem squeeze_text (j : Json) : squeeze (j.text layout) = j.text .compact := by
  rw [squeeze, text, text, String.toList_ofList, squeezeFrom_put layout 0 0]
  rfl

end

end Json

/-- The two layouts of the JSON text of a statement agree. Deleting the spaces and line feeds
outside of string literals from the indented text gives the compact text, whatever the strings of
the statement hold. -/
theorem Statement.squeeze_indentedText (s : Statement) :
    Json.squeeze (s.toJson.text .indented) = s.toJson.text .compact :=
  Json.squeeze_text .indented s.toJson

/-- A blank in a string stays, though an escaped quote comes before it, and an empty list of
arguments is the same in both layouts. -/
theorem Statement.squeeze_indentedText_string_and_call :
    ((stringLiteral "\" \n").toJson.text .indented =
        "\x7b\n  \"type\": \"stringLiteral\",\n  \"value\": \"\\\" \\n\"\n\x7d" ∧
      Json.squeeze "\x7b\n  \"type\": \"stringLiteral\",\n  \"value\": \"\\\" \\n\"\n\x7d" =
        "\x7b\"type\":\"stringLiteral\",\"value\":\"\\\" \\n\"\x7d") ∧
    Json.squeeze ((expression ⟨⟨"f", []⟩, []⟩).toJson.text .indented) =
      "\x7b\"type\":\"expression\",\"value\":" ++
        "\x7b\"call\":\x7b\"name\":\"f\",\"args\":[]\x7d\x7d\x7d" := by
  have hindented : (stringLiteral "\" \n").toJson.text .indented =
      "\x7b\n  \"type\": \"stringLiteral\",\n  \"value\": \"\\\" \\n\"\n\x7d" := by decide +kernel
  refine ⟨⟨hindented, ?_⟩, ?_⟩
  · rw [← hindented, squeeze_indentedText]
    decide +kernel
  · rw [squeeze_indentedText]
    decide +kernel

end BracketExpr
