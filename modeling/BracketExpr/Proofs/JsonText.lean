import BracketExpr.Json.Basic
import BracketExpr.Proofs.RoundTrip
import Mathlib.Tactic.SplitIfs

/-!
# JSON texts are uniquely readable

The JSON text of a value determines the value, in either layout: strings are read back character by
character, since no escape starts like another one; numbers end where no digit follows; and the
first character of a text says what kind of value it is. In front of a text that follows it, a value
ends where it was written to end, and this is what carries the induction through lists and objects.

Control characters are escaped in strings and stand nowhere else in the compact layout.
-/

namespace BracketExpr

namespace Json

/-! ## Strings -/

/-- The value of a lower-case hexadecimal digit. -/
def hexValue (c : Char) : Nat :=
  if c.isDigit then c.toNat - '0'.toNat else c.toNat - 'a'.toNat + 10

/-- The character at the start of the inside of a string, escaped or not, and what follows it. There
is none in front of the quote that ends the string. -/
def unescape : Text → Option (Char × Text)
  | '\\' :: 'b' :: s => some ('\x08', s)
  | '\\' :: 'f' :: s => some ('\x0c', s)
  | '\\' :: 'n' :: s => some ('\n', s)
  | '\\' :: 'r' :: s => some ('\r', s)
  | '\\' :: 't' :: s => some ('\t', s)
  | '\\' :: 'u' :: '0' :: '0' :: h :: l :: s =>
    some (Char.ofNat (16 * hexValue h + hexValue l), s)
  | '\\' :: c :: s => some (c, s)
  | c :: s => if c = '"' then none else some (c, s)
  | [] => none

/-- A hexadecimal digit tells its value. -/
theorem hexValue_hexDigit (n : Nat) : hexValue (hexDigit n) = n % 16 := by
  have hall : ∀ m < 16, hexValue (Nat.digitChar m) = m := by decide
  rw [hexDigit]
  exact hall _ (Nat.mod_lt n (by decide))

/-- The escape of a character is taken for that character, whatever follows. -/
theorem unescape_escape_append (c : Char) (s : Text) : unescape (escape c ++ s) = some (c, s) := by
  rw [escape]
  split_ifs with hquote hbackslash h h h h h hcontrol
  · rw [hquote]; rfl
  · rw [hbackslash]; rfl
  · rw [h]; rfl
  · rw [h]; rfl
  · rw [h]; rfl
  · rw [h]; rfl
  · rw [h]; rfl
  · -- Two hexadecimal digits are enough for a control character.
    have hvalue : 16 * hexValue (hexDigit (c.toNat / 16)) + hexValue (hexDigit c.toNat) =
        c.toNat := by
      rw [hexValue_hexDigit, hexValue_hexDigit]
      omega
    show some (Char.ofNat _, s) = some (c, s)
    rw [hvalue, Char.ofNat_toNat]
  · rw [List.singleton_append, unescape.eq_8, if_neg hquote]
    all_goals
      intros
      exact hbackslash ‹_›

/-- The closing quote is no escape, so it ends the string. -/
theorem unescape_quote (s : Text) : unescape ('"' :: s) = none := rfl

/-- The inside of a string ends at the quote that it was closed with. -/
theorem putEscaped_inj {s t r₁ r₂ : Text}
    (h : putEscaped s ('"' :: r₁) = putEscaped t ('"' :: r₂)) : s = t ∧ r₁ = r₂ := by
  have hread := congrArg unescape h
  induction s generalizing t with
  | nil =>
    cases t with
    | nil => exact ⟨rfl, (List.cons.inj h).2⟩
    | cons d t =>
      rw [putEscaped, putEscaped, unescape_quote, unescape_escape_append] at hread
      cases hread
  | cons c s ih =>
    cases t with
    | nil =>
      rw [putEscaped, putEscaped, unescape_quote, unescape_escape_append] at hread
      cases hread
    | cons d t =>
      rw [putEscaped, putEscaped, unescape_escape_append, unescape_escape_append] at hread
      obtain ⟨rfl, hrest⟩ := Prod.mk.inj (Option.some.inj hread)
      obtain ⟨rfl, hr⟩ := ih hrest (congrArg unescape hrest)
      exact ⟨rfl, hr⟩

/-- Where a printed string ends can be told from its text. -/
theorem putString_inj {s t : String} {r₁ r₂ : Text} (h : putString s r₁ = putString t r₂) :
    s = t ∧ r₁ = r₂ := by
  obtain ⟨hst, hr⟩ := putEscaped_inj (List.cons.inj h).2
  exact ⟨String.toList_inj.1 hst, hr⟩

end Json

/-! ## Numbers -/

namespace Numeral

/-- Digits tell their number, if no digit stands behind them. -/
theorem naturalText_append_inj {m n : Nat} {r₁ r₂ : Text} (h₁ : r₁.StartsOutside Char.isDigit)
    (h₂ : r₂.StartsOutside Char.isDigit) (h : naturalText m ++ r₁ = naturalText n ++ r₂) :
    m = n ∧ r₁ = r₂ := by
  have hdigits : naturalText m = naturalText n := by
    calc naturalText m = (naturalText m ++ r₁).takeWhile Char.isDigit :=
          (Text.takeWhile_append_of_outside (isRun_naturalText m).2 h₁).symm
      _ = (naturalText n ++ r₂).takeWhile Char.isDigit := by rw [h]
      _ = naturalText n := Text.takeWhile_append_of_outside (isRun_naturalText n).2 h₂
  constructor
  · calc m = Nat.ofDigitChars 10 (naturalText m) 0 := Nat.ofDigitChars_ten_toDigits.symm
      _ = Nat.ofDigitChars 10 (naturalText n) 0 := by rw [hdigits]
      _ = n := Nat.ofDigitChars_ten_toDigits
  · rw [hdigits] at h
    exact List.append_cancel_left h

theorem exists_head_naturalText (n : Nat) : ∃ c s, naturalText n = c :: s ∧ c.isDigit := by
  obtain ⟨c, s, hs⟩ := List.exists_cons_of_ne_nil (isRun_naturalText n).1
  refine ⟨c, s, hs, (isRun_naturalText n).2 c ?_⟩
  rw [hs]
  exact List.mem_cons_self

/-- Digits are not taken for a sign. -/
theorem naturalText_append_ne_minus (n : Nat) (r s : Text) : naturalText n ++ r ≠ '-' :: s := by
  obtain ⟨c, t, ht, hc⟩ := exists_head_naturalText n
  intro h
  rw [ht] at h
  obtain rfl := (List.cons.inj h).1
  exact absurd hc (by decide)

/-- A number ends where no digit follows. -/
theorem text_append_inj {k l : Int} {r₁ r₂ : Text} (h₁ : r₁.StartsOutside Char.isDigit)
    (h₂ : r₂.StartsOutside Char.isDigit) (h : text k ++ r₁ = text l ++ r₂) : k = l ∧ r₁ = r₂ := by
  cases k with
  | ofNat m =>
    cases l with
    | ofNat n =>
      obtain ⟨rfl, hr⟩ := naturalText_append_inj h₁ h₂ h
      exact ⟨rfl, hr⟩
    | negSucc n => exact absurd h (naturalText_append_ne_minus m r₁ _)
  | negSucc m =>
    cases l with
    | ofNat n => exact absurd h.symm (naturalText_append_ne_minus n r₂ _)
    | negSucc n =>
      obtain ⟨hmn, hr⟩ := naturalText_append_inj h₁ h₂ (List.cons.inj h).2
      obtain rfl := Nat.succ.inj hmn
      exact ⟨rfl, hr⟩

/-- The text of an integer starts as numbers do. -/
theorem exists_head_text (k : Int) : ∃ c s, text k = c :: s ∧ startsNumber c := by
  cases k with
  | ofNat n =>
    obtain ⟨c, s, hs, hc⟩ := exists_head_naturalText n
    exact ⟨c, s, hs, by simp [startsNumber, hc]⟩
  | negSucc n => exact ⟨'-', _, rfl, by decide⟩

end Numeral

/-! ## Values -/

namespace Json

/-- The kinds of values. -/
inductive Kind where
  | str | num | bool | arr | obj

/-- The kind of a value. -/
def kind : Json → Kind
  | .str _ => .str
  | .num _ => .num
  | .bool _ => .bool
  | .arr _ => .arr
  | .obj _ => .obj

/-- The kind of the values whose text starts with a character. -/
def Kind.ofFirst? (c : Char) : Option Kind :=
  if c = '"' then some .str
  else if c = '[' then some .arr
  else if c = '\x7b' then some .obj
  else if c = 't' ∨ c = 'f' then some .bool
  else if startsNumber c then some .num
  else none

theorem Kind.ofFirst?_of_startsNumber {c : Char} (h : startsNumber c) :
    ofFirst? c = some .num := by
  have hne (d : Char) (hd : startsNumber d = false) : c ≠ d := by
    rintro rfl
    rw [hd] at h
    cases h
  rw [ofFirst?, if_neg (hne _ (by decide)), if_neg (hne _ (by decide)), if_neg (hne _ (by decide)),
    if_neg (not_or.2 ⟨hne _ (by decide), hne _ (by decide)⟩), if_pos h]

section

variable (layout : Layout) (level : Nat)

/-- The first character of the text of a value tells its kind. -/
theorem exists_head_put (j : Json) (r : Text) :
    ∃ c s, put layout level j r = c :: s ∧ Kind.ofFirst? c = some j.kind := by
  cases j with
  | str s => exact ⟨'"', _, by rw [put, putString], rfl⟩
  | num n =>
    obtain ⟨c, s, hs, hc⟩ := Numeral.exists_head_text n
    exact ⟨c, s ++ r, by rw [put, hs, List.cons_append], Kind.ofFirst?_of_startsNumber hc⟩
  | bool b =>
    cases b with
    | true => exact ⟨'t', _, by rw [put]; rfl, rfl⟩
    | false => exact ⟨'f', _, by rw [put]; rfl, rfl⟩
  | arr items =>
    cases items with
    | nil => exact ⟨'[', _, by rw [put], rfl⟩
    | cons j items => exact ⟨'[', _, by rw [put], rfl⟩
  | obj fields =>
    cases fields with
    | nil => exact ⟨'\x7b', _, by rw [put], rfl⟩
    | cons field fields => exact ⟨'\x7b', _, by rw [put], rfl⟩

variable {layout level}

/-- The first character of a printed value tells what kind of value it is. -/
theorem kind_eq_of_put_eq {j₁ j₂ : Json} {r₁ r₂ : Text}
    (h : put layout level j₁ r₁ = put layout level j₂ r₂) : j₁.kind = j₂.kind := by
  obtain ⟨c₁, s₁, h₁, hc₁⟩ := exists_head_put layout level j₁ r₁
  obtain ⟨c₂, s₂, h₂, hc₂⟩ := exists_head_put layout level j₂ r₂
  rw [h₁, h₂] at h
  obtain rfl := (List.cons.inj h).1
  exact Option.some.inj (hc₁.symm.trans hc₂)

/-- What separates and closes items neither goes on a number nor is a value. -/
theorem startsOutside_lineBreak_append (layout : Layout) (level : Nat) {r : Text}
    (h : r.StartsOutside Char.isDigit) :
    Text.StartsOutside Char.isDigit (layout.lineBreak level ++ r) := by
  cases layout with
  | compact => exact h
  | indented => rfl

/-- Behind a number in a list no digit follows. -/
theorem startsOutside_putItems (items : List Json) {r : Text} (h : r.StartsOutside Char.isDigit) :
    Text.StartsOutside Char.isDigit (putItems layout level items r) := by
  cases items with
  | nil => rwa [putItems]
  | cons j items => rw [putItems]; rfl

/-- Behind a number in an object no digit follows. -/
theorem startsOutside_putFields (fields : List (String × Json)) {r : Text}
    (h : r.StartsOutside Char.isDigit) :
    Text.StartsOutside Char.isDigit (putFields layout level fields r) := by
  cases fields with
  | nil => rwa [putFields]
  | cons field fields => rw [putFields]; rfl

/-- Blanks in front of `d` are not taken for another character. -/
theorem lineBreak_append_cons_ne {c d : Char} (hbreak : c ≠ '\n') (hne : d ≠ c) (r s : Text) :
    layout.lineBreak level ++ d :: r ≠ c :: s := by
  intro h
  cases layout with
  | compact => exact hne (List.cons.inj h).1
  | indented => exact hbreak (List.cons.inj h).1.symm

/-- What closes a list is not the start of its first item. -/
theorem lineBreak_append_put_ne_bracket (j : Json) (r s : Text) :
    layout.lineBreak level ++ put layout level j r ≠ ']' :: s := by
  obtain ⟨d, t, ht, hd⟩ := exists_head_put layout level j r
  rw [ht]
  apply lineBreak_append_cons_ne (by decide)
  rintro rfl
  cases hd

end

mutual

/-- A value ends where it was written to end: behind it, no text can be taken for a part of it. -/
theorem put_inj {layout : Layout} {level : Nat} {j₁ j₂ : Json} {r₁ r₂ : Text}
    (h₁ : r₁.StartsOutside Char.isDigit) (h₂ : r₂.StartsOutside Char.isDigit)
    (h : put layout level j₁ r₁ = put layout level j₂ r₂) : j₁ = j₂ ∧ r₁ = r₂ :=
  match j₁, j₂, kind_eq_of_put_eq h with
  | .str s, .str t, _ => by
    rw [put, put] at h
    obtain ⟨rfl, hr⟩ := putString_inj h
    exact ⟨rfl, hr⟩
  | .num m, .num n, _ => by
    rw [put, put] at h
    obtain ⟨rfl, hr⟩ := Numeral.text_append_inj h₁ h₂ h
    exact ⟨rfl, hr⟩
  | .bool a, .bool b, _ => by
    rw [put, put] at h
    cases a <;> cases b <;> simp_all [booleanText]
  | .arr [], .arr [], _ => by
    rw [put, put] at h
    exact ⟨rfl, (List.cons.inj (List.cons.inj h).2).2⟩
  | .arr [], .arr (j :: items), _ => by
    rw [put, put] at h
    exact absurd (List.cons.inj h).2.symm (lineBreak_append_put_ne_bracket j _ _)
  | .arr (j :: items), .arr [], _ => by
    rw [put, put] at h
    exact absurd (List.cons.inj h).2 (lineBreak_append_put_ne_bracket j _ _)
  | .arr (j₁ :: items₁), .arr (j₂ :: items₂), _ => by
    rw [put, put] at h
    have hclose (r : Text) := startsOutside_lineBreak_append layout level (r := ']' :: r) rfl
    have hrest := List.append_cancel_left (List.cons.inj h).2
    obtain ⟨rfl, hitems⟩ := put_inj (startsOutside_putItems items₁ (hclose r₁))
      (startsOutside_putItems items₂ (hclose r₂)) hrest
    obtain ⟨rfl, hr⟩ := putItems_inj hitems
    exact ⟨rfl, hr⟩
  | .obj [], .obj [], _ => by
    rw [put, put] at h
    exact ⟨rfl, (List.cons.inj (List.cons.inj h).2).2⟩
  | .obj [], .obj ((key, j) :: fields), _ => by
    rw [put, put] at h
    exact absurd (List.cons.inj h).2.symm (lineBreak_append_cons_ne (by decide) (by decide) _ _)
  | .obj ((key, j) :: fields), .obj [], _ => by
    rw [put, put] at h
    exact absurd (List.cons.inj h).2 (lineBreak_append_cons_ne (by decide) (by decide) _ _)
  | .obj ((key₁, j₁) :: fields₁), .obj ((key₂, j₂) :: fields₂), _ => by
    rw [put, put] at h
    have hclose (r : Text) := startsOutside_lineBreak_append layout level (r := '\x7d' :: r) rfl
    obtain ⟨rfl, hvalue⟩ := putString_inj (List.append_cancel_left (List.cons.inj h).2)
    have hrest := List.append_cancel_left hvalue
    obtain ⟨rfl, hfields⟩ := put_inj (startsOutside_putFields fields₁ (hclose r₁))
      (startsOutside_putFields fields₂ (hclose r₂)) hrest
    obtain ⟨rfl, hr⟩ := putFields_inj hfields
    exact ⟨rfl, hr⟩

/-- The rest of a list can be told from its text up to the closing bracket. -/
theorem putItems_inj {layout : Layout} {level : Nat} {items₁ items₂ : List Json} {r₁ r₂ : Text}
    (h : putItems layout (level + 1) items₁ (layout.lineBreak level ++ ']' :: r₁) =
      putItems layout (level + 1) items₂ (layout.lineBreak level ++ ']' :: r₂)) :
    items₁ = items₂ ∧ r₁ = r₂ :=
  match items₁, items₂ with
  | [], [] => by
    rw [putItems, putItems] at h
    exact ⟨rfl, (List.cons.inj (List.append_cancel_left h)).2⟩
  | [], j :: items => by
    rw [putItems, putItems] at h
    exact absurd h (lineBreak_append_cons_ne (by decide) (by decide) _ _)
  | j :: items, [] => by
    rw [putItems, putItems] at h
    exact absurd h.symm (lineBreak_append_cons_ne (by decide) (by decide) _ _)
  | j₁ :: items₁, j₂ :: items₂ => by
    rw [putItems, putItems] at h
    have hclose (r : Text) := startsOutside_lineBreak_append layout level (r := ']' :: r) rfl
    have hrest := List.append_cancel_left (List.cons.inj h).2
    obtain ⟨rfl, hitems⟩ := put_inj (startsOutside_putItems items₁ (hclose r₁))
      (startsOutside_putItems items₂ (hclose r₂)) hrest
    obtain ⟨rfl, hr⟩ := putItems_inj hitems
    exact ⟨rfl, hr⟩

/-- The rest of an object can be told from its text up to the closing brace. -/
theorem putFields_inj {layout : Layout} {level : Nat} {fields₁ fields₂ : List (String × Json)}
    {r₁ r₂ : Text}
    (h : putFields layout (level + 1) fields₁ (layout.lineBreak level ++ '\x7d' :: r₁) =
      putFields layout (level + 1) fields₂ (layout.lineBreak level ++ '\x7d' :: r₂)) :
    fields₁ = fields₂ ∧ r₁ = r₂ :=
  match fields₁, fields₂ with
  | [], [] => by
    rw [putFields, putFields] at h
    exact ⟨rfl, (List.cons.inj (List.append_cancel_left h)).2⟩
  | [], (key, j) :: fields => by
    rw [putFields, putFields] at h
    exact absurd h (lineBreak_append_cons_ne (by decide) (by decide) _ _)
  | (key, j) :: fields, [] => by
    rw [putFields, putFields] at h
    exact absurd h.symm (lineBreak_append_cons_ne (by decide) (by decide) _ _)
  | (key₁, j₁) :: fields₁, (key₂, j₂) :: fields₂ => by
    rw [putFields, putFields] at h
    have hclose (r : Text) := startsOutside_lineBreak_append layout level (r := '\x7d' :: r) rfl
    obtain ⟨rfl, hvalue⟩ := putString_inj (List.append_cancel_left (List.cons.inj h).2)
    have hrest := List.append_cancel_left hvalue
    obtain ⟨rfl, hfields⟩ := put_inj (startsOutside_putFields fields₁ (hclose r₁))
      (startsOutside_putFields fields₂ (hclose r₂)) hrest
    obtain ⟨rfl, hr⟩ := putFields_inj hfields
    exact ⟨rfl, hr⟩

end

/-- The text of a value determines the value. -/
theorem text_inj {layout : Layout} {j₁ j₂ : Json} (h : j₁.text layout = j₂.text layout) :
    j₁ = j₂ :=
  (put_inj (Text.startsOutside_nil _) (Text.startsOutside_nil _) (String.ofList_inj.1 h)).1

/-! ## Control characters -/

/-- A text without control characters. -/
def IsPrintable (s : Text) : Prop :=
  ∀ c ∈ s, 0x20 ≤ c.toNat

instance (s : Text) : Decidable (IsPrintable s) :=
  List.decidableBAll _ s

theorem isPrintable_nil : IsPrintable [] := by
  simp [IsPrintable]

theorem IsPrintable.append {s t : Text} (hs : IsPrintable s) (ht : IsPrintable t) :
    IsPrintable (s ++ t) := by
  intro c hc
  rcases List.mem_append.1 hc with hc | hc
  · exact hs c hc
  · exact ht c hc

theorem IsPrintable.cons {c : Char} {s : Text} (hc : 0x20 ≤ c.toNat) (hs : IsPrintable s) :
    IsPrintable (c :: s) :=
  List.forall_mem_cons.2 ⟨hc, hs⟩

/-- Digits are no control characters. -/
theorem le_toNat_of_isDigit {c : Char} (h : c.isDigit) : 0x20 ≤ c.toNat := by
  simp only [Char.isDigit, Bool.and_eq_true, decide_eq_true_eq] at h
  have hlow : '0'.toNat ≤ c.toNat := UInt32.le_iff_toNat_le.1 h.1
  exact Nat.le_trans (by decide) hlow

theorem le_toNat_hexDigit (n : Nat) : 0x20 ≤ (hexDigit n).toNat := by
  have hall : ∀ m < 16, 0x20 ≤ (Nat.digitChar m).toNat := by decide
  rw [hexDigit]
  exact hall _ (Nat.mod_lt n (by decide))

/-- Control characters are printed as escapes, and everything else is printable itself. -/
theorem isPrintable_escape (c : Char) : IsPrintable (escape c) := by
  rw [escape]
  split_ifs with _ _ _ _ _ _ _ hcontrol
  · decide
  · decide
  · decide
  · decide
  · decide
  · decide
  · decide
  · have hdigits : IsPrintable [hexDigit (c.toNat / 16), hexDigit c.toNat] :=
      (isPrintable_nil.cons (le_toNat_hexDigit _)).cons (le_toNat_hexDigit _)
    exact .append (s := ['\\', 'u', '0', '0']) (by decide) hdigits
  · exact isPrintable_nil.cons (Nat.le_of_not_lt hcontrol)

/-- The characters of a string are printed as printable characters, whatever they are. -/
theorem isPrintable_putEscaped {s r : Text} (hr : IsPrintable r) :
    IsPrintable (putEscaped s r) := by
  induction s with
  | nil => exact hr
  | cons c s ih => exact (isPrintable_escape c).append ih

theorem isPrintable_putString (s : String) {r : Text} (hr : IsPrintable r) :
    IsPrintable (putString s r) :=
  .cons (by decide) (isPrintable_putEscaped (hr.cons (by decide)))

theorem isPrintable_text_append (k : Int) {r : Text} (hr : IsPrintable r) :
    IsPrintable (Numeral.text k ++ r) := by
  have hnatural (n : Nat) : IsPrintable (Numeral.naturalText n) := fun c hc =>
    le_toNat_of_isDigit ((Numeral.isRun_naturalText n).2 c hc)
  cases k with
  | ofNat n => exact (hnatural n).append hr
  | negSucc n => exact ((hnatural (n + 1)).cons (by decide)).append hr

mutual

/-- The compact text of a value has no control characters, whatever its strings hold. -/
theorem isPrintable_put (level : Nat) : ∀ (j : Json) {r : Text}, IsPrintable r →
    IsPrintable (put .compact level j r)
  | .str s, r, hr => by
    rw [put]
    exact isPrintable_putString s hr
  | .num n, r, hr => by
    rw [put]
    exact isPrintable_text_append n hr
  | .bool b, r, hr => by
    rw [put]
    refine .append ?_ hr
    cases b <;> decide
  | .arr [], r, hr => by
    rw [put]
    exact (hr.cons (by decide)).cons (by decide)
  | .arr (j :: items), r, hr => by
    rw [put]
    have hitems := isPrintable_putItems (level + 1) items (hr.cons (c := ']') (by decide))
    exact (isPrintable_put (level + 1) j hitems).cons (by decide)
  | .obj [], r, hr => by
    rw [put]
    exact (hr.cons (by decide)).cons (by decide)
  | .obj ((key, j) :: fields), r, hr => by
    rw [put]
    have hfields := isPrintable_putFields (level + 1) fields (hr.cons (c := '\x7d') (by decide))
    have hvalue := isPrintable_put (level + 1) j hfields
    exact (isPrintable_putString key (hvalue.cons (by decide))).cons (by decide)

theorem isPrintable_putItems (level : Nat) : ∀ (items : List Json) {r : Text}, IsPrintable r →
    IsPrintable (putItems .compact level items r)
  | [], r, hr => by rwa [putItems]
  | j :: items, r, hr => by
    rw [putItems]
    exact (isPrintable_put level j (isPrintable_putItems level items hr)).cons (by decide)

theorem isPrintable_putFields (level : Nat) : ∀ (fields : List (String × Json)) {r : Text},
    IsPrintable r → IsPrintable (putFields .compact level fields r)
  | [], r, hr => by rwa [putFields]
  | (key, j) :: fields, r, hr => by
    rw [putFields]
    have hvalue := isPrintable_put level j (isPrintable_putFields level fields hr)
    exact (isPrintable_putString key (hvalue.cons (by decide))).cons (by decide)

end

end Json

end BracketExpr
