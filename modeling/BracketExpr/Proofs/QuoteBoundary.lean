import BracketExpr.Lexeme.Boolean
import BracketExpr.Proofs.Lexeme
import Mathlib.Algebra.Ring.Parity

/-!
# A quote is a boundary

No lexeme but a quoted text contains a quote, so every scan that starts in front of a quote stops
there at the latest, and whatever stands behind the quote makes no difference to it. A quoted text
that starts in front of the quote ends in front of it too, if the quotes in between say so: they
come in pairs, and the last of them is not doubled by the quote at the boundary.
-/

namespace BracketExpr

/-! ## Texts that leave no quote open -/

/-- At the end of the text no quoted text is open, and none ends there that one more quote would
continue. -/
structure Text.ClosesQuotes (u : Text) : Prop where
  even : Even (u.count '\x27')
  last : u.getLast? ≠ some '\x27'

namespace Text

theorem getLast?_ne_of_append {w u : Text} {c : Char} (h : (w ++ u).getLast? ≠ some c) :
    u.getLast? ≠ some c := by
  intro hu
  rw [List.getLast?_append, hu] at h
  exact h rfl

/-- What remains of such a text behind other characters than quotes is such a text. -/
theorem ClosesQuotes.of_append {w u : Text} (h : (w ++ u).ClosesQuotes) (hw : '\x27' ∉ w) :
    u.ClosesQuotes := by
  refine ⟨?_, getLast?_ne_of_append h.last⟩
  have heven := h.even
  rwa [List.count_append, List.count_eq_zero_of_not_mem hw, Nat.zero_add] at heven

/-- Reading a part without quotes leaves no quote open. -/
theorem ClosesQuotes.drop {w u : Text} (h : u.ClosesQuotes) (hstarts : w <+: u)
    (hw : '\x27' ∉ w) : ClosesQuotes (u.drop w.length) := by
  obtain ⟨v, rfl⟩ := hstarts
  rw [List.drop_left]
  exact h.of_append hw

theorem ClosesQuotes.skipBlanks {u : Text} (h : u.ClosesQuotes) : u.skipBlanks.ClosesQuotes := by
  obtain ⟨w, hw, hu⟩ := u.exists_blank_append
  rw [hu] at h
  refine h.of_append fun hmem => ?_
  exact absurd (hw _ hmem) (by decide)

/-! ## Scans in front of a quote -/

/-- A run of a class without the quote ends at the quote at the latest. -/
theorem takeWhile_append_quote {p : Char → Bool} (hp : p '\x27' = false) (u t : Text) :
    (u ++ '\x27' :: t).takeWhile p = u.takeWhile p := by
  induction u with
  | nil => simp [hp]
  | cons c u ih =>
    rw [List.cons_append, List.takeWhile_cons, List.takeWhile_cons, ih]

/-- Blanks are skipped up to the quote at the latest. -/
theorem skipBlanks_append_quote (u t : Text) :
    skipBlanks (u ++ '\x27' :: t) = skipBlanks u ++ '\x27' :: t := by
  induction u with
  | nil => rfl
  | cons c u ih =>
    by_cases hc : isBlank c
    · simpa [skipBlanks, hc] using ih
    · simp [skipBlanks, hc]

/-- Dropping a prefix does not touch what stands behind the text. -/
theorem drop_prefix_append {w u : Text} (h : w <+: u) (t : Text) :
    (u ++ t).drop w.length = u.drop w.length ++ t :=
  List.drop_append_of_le_length h.length_le

end Text

theorem wordAt_append_quote (u t : Text) : wordAt (u ++ '\x27' :: t) = wordAt u :=
  Text.takeWhile_append_quote (by decide) u t

theorem memberNameAt_append_quote (u t : Text) : memberNameAt (u ++ '\x27' :: t) = memberNameAt u :=
  Text.takeWhile_append_quote (by decide) u t

theorem dottedSuffixAt_append_quote (u t : Text) :
    dottedSuffixAt (u ++ '\x27' :: t) = dottedSuffixAt u := by
  cases u with
  | nil => rfl
  | cons c u =>
    rw [List.cons_append, dottedSuffixAt, dottedSuffixAt, wordAt_append_quote]
    cases u with
    | nil => rfl
    | cons d u => rfl

theorem functionNameAt_append_quote (u t : Text) :
    functionNameAt (u ++ '\x27' :: t) = functionNameAt u := by
  cases u with
  | nil => rfl
  | cons c u =>
    simp only [functionNameAt, wordAt_append_quote, Text.drop_prefix_append (wordAt_isPrefix _),
      dottedSuffixAt_append_quote]
    rfl

/-- Whether a call starts in front of a quote does not depend on what is quoted. -/
theorem isCallAt_append_quote (u t : Text) : isCallAt (u ++ '\x27' :: t) = isCallAt u := by
  simp only [isCallAt, functionNameAt_append_quote,
    Text.drop_prefix_append (functionNameAt_isPrefix u), Text.skipBlanks_append_quote]
  cases Text.skipBlanks (u.drop (functionNameAt u).length) <;> rfl

/-- A numeral in front of a quote does not depend on what is quoted. -/
theorem Numeral.scan_append_quote (u t : Text) : scan (u ++ '\x27' :: t) = scan u := by
  have hdigit (v : Text) : (v ++ '\x27' :: t).takeWhile Char.isDigit = v.takeWhile Char.isDigit :=
    Text.takeWhile_append_quote (by decide) v t
  fun_cases scan u with
  | case1 v => exact congrArg ('-' :: ·) (hdigit v)
  | case2 _ hminus =>
    rw [← hdigit u]
    refine scan.eq_2 _ fun v hv => ?_
    cases u with
    | nil => exact absurd (List.cons.inj hv).1 (by decide)
    | cons c u =>
      obtain rfl := (List.cons.inj hv).1
      exact hminus u rfl

/-- A word without quotes stands at a text with a quote only if it ends before the quote. -/
theorem isPrefixOf_append_quote {w : Text} (hw : '\x27' ∉ w) (u t : Text) :
    w.isPrefixOf (u ++ '\x27' :: t) = w.isPrefixOf u := by
  induction w generalizing u with
  | nil => simp
  | cons c w ih =>
    have hc : c ≠ '\x27' := fun h => hw (h ▸ List.mem_cons_self)
    cases u with
    | nil =>
      rw [List.nil_append, List.isPrefixOf_cons_cons, beq_eq_false_iff_ne.2 hc]
      rfl
    | cons d u =>
      have hw' : '\x27' ∉ w := fun h => hw (List.mem_cons_of_mem _ h)
      rw [List.cons_append, List.isPrefixOf_cons_cons, List.isPrefixOf_cons_cons, ih hw']

/-- A quote ends a word as the end of the text does. -/
theorem isWordAt_append_quote {w : Text} (hw : '\x27' ∉ w) (u t : Text) :
    isWordAt w (u ++ '\x27' :: t) = isWordAt w u := by
  rw [isWordAt, isWordAt, isPrefixOf_append_quote hw]
  by_cases hstarts : w.isPrefixOf u
  · rw [Text.drop_prefix_append (List.isPrefixOf_iff_prefix.1 hstarts)]
    cases u.drop w.length <;> rfl
  · simp [hstarts]

/-! ## No quote in a lexeme -/

/-- A class without the quote makes texts without quotes. -/
theorem quote_notMem_of_all {p : Char → Bool} (hp : p '\x27' = false) {w : Text}
    (hw : ∀ c ∈ w, p c) : '\x27' ∉ w := by
  intro hmem
  rw [hw _ hmem] at hp
  cases hp

theorem quote_notMem_memberNameAt (u : Text) : '\x27' ∉ memberNameAt u :=
  quote_notMem_of_all (p := isMemberChar) (by decide) (List.all_eq_true.1 List.all_takeWhile)

theorem quote_notMem_functionNameAt (u : Text) : '\x27' ∉ functionNameAt u := by
  have hword (v : Text) : '\x27' ∉ wordAt v :=
    quote_notMem_of_all (p := isWordChar) (by decide) wordAt_isWordChar
  have hsuffix (v : Text) : '\x27' ∉ dottedSuffixAt v := by
    cases v with
    | nil => exact List.not_mem_nil
    | cons c v =>
      rw [dottedSuffixAt]
      split
      next hc =>
        have hpoint : c = '.' := by simpa using (Bool.and_eq_true_iff.1 hc).1
        simp [hpoint, hword v]
      next => exact List.not_mem_nil
  rw [functionNameAt]
  split
  · simp [hword, hsuffix]
  · exact List.not_mem_nil

theorem quote_notMem_booleanText (b : Bool) : '\x27' ∉ booleanText b := by
  cases b <;> decide

theorem Numeral.quote_notMem_scan (u : Text) : '\x27' ∉ scan u := by
  have hdigits (v : Text) : '\x27' ∉ v.takeWhile Char.isDigit :=
    quote_notMem_of_all (p := Char.isDigit) (by decide) takeWhile_isDigit
  fun_cases scan u with
  | case1 v => simp [hdigits v]
  | case2 => exact hdigits u

/-! ## Quoted texts that end in front of a quote -/

/-- With an odd number of quotes ahead, the closing one is among them, and what it leaves has the
rest of them in pairs. -/
theorem Quoted.exists_body_append {u : Text} (hodd : Odd (u.count '\x27'))
    (hlast : u.getLast? ≠ some '\x27') :
    ∃ v u' : Text, u'.ClosesQuotes ∧ ∀ t, body (u ++ t) = some (v, u' ++ t) := by
  fun_induction body u with
  | case1 => simp at hodd
  | case2 s ih =>
    -- A doubled quote takes two of them.
    have hodd' : Odd (s.count '\x27') := by
      rwa [List.count_cons_self, List.count_cons_self, Nat.odd_add_one, Nat.odd_add_one,
        not_not] at hodd
    obtain ⟨v, u', hu', hbody⟩ :=
      ih hodd' (Text.getLast?_ne_of_append (w := ['\x27', '\x27']) hlast)
    refine ⟨'\x27' :: v, u', hu', fun t => ?_⟩
    rw [List.cons_append, List.cons_append, body.eq_2, hbody]
    rfl
  | case3 s hs =>
    -- The closing quote is not the last character, and no quote comes after it.
    refine ⟨[], s, ⟨?_, Text.getLast?_ne_of_append (w := ['\x27']) hlast⟩, fun t => ?_⟩
    · rw [List.count_cons_self, Nat.odd_add_one, Nat.not_odd_iff_even] at hodd
      exact hodd
    · rw [List.cons_append, body.eq_3 _ _ ?_, if_pos rfl]
      intro s' _ hs'
      cases s with
      | nil => exact hlast rfl
      | cons c s => exact hs s rfl (by rw [(List.cons.inj hs').1])
  | case4 c s hc hne ih =>
    rw [List.count_cons_of_ne hne] at hodd
    obtain ⟨v, u', hu', hbody⟩ := ih hodd (Text.getLast?_ne_of_append (w := [c]) hlast)
    refine ⟨c :: v, u', hu', fun t => ?_⟩
    rw [List.cons_append, body.eq_3 _ _ fun _ h => absurd h hne, if_neg hne, hbody]
    rfl

end BracketExpr
