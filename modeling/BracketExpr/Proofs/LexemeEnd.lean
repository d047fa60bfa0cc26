import BracketExpr.Lexeme.Boolean
import BracketExpr.Proofs.Lexeme

/-!
# What a lexeme leaves

A lexeme is taken as long as possible, so what it leaves does not start with a character that
belongs to it. As long as something is left, this does not depend on what the text goes on with.
-/

namespace BracketExpr

namespace Text

/-! ## Longest prefixes -/

/-- Of all texts with `P` that `s` starts with, `w` is the longest one. -/
structure IsLongestPrefix (P : Text → Prop) (w s : Text) : Prop where
  isPrefix : w <+: s
  holds : P w
  length_le : ∀ v : Text, v <+: s → P v → v.length ≤ w.length

/-- A text has at most one longest prefix with a property. -/
theorem IsLongestPrefix.eq {P : Text → Prop} {v w s : Text} (hv : IsLongestPrefix P v s)
    (hw : IsLongestPrefix P w s) : v = w := by
  have hle := hw.length_le v hv.isPrefix hv.holds
  have hge := hv.length_le w hw.isPrefix hw.holds
  refine List.IsPrefix.eq_of_length ?_ (Nat.le_antisymm hle hge)
  exact List.prefix_of_prefix_length_le hv.isPrefix hw.isPrefix hle

/-- No prefix made of the same characters is longer than the run that `takeWhile` takes. -/
theorem length_le_length_takeWhile {p : Char → Bool} {v s : Text} (h : v <+: s)
    (hv : ∀ c ∈ v, p c) : v.length ≤ (s.takeWhile p).length := by
  obtain ⟨t, rfl⟩ := h
  rw [List.takeWhile_append_of_pos hv, List.length_append]
  exact Nat.le_add_right _ _

/-! ## What is left -/

/-- What a non-empty text starts with is not changed by a text behind it. -/
theorem StartsOutside.append {p : Char → Bool} {s : Text} (h : s.StartsOutside p) (hs : s ≠ [])
    (t : Text) : StartsOutside p (s ++ t) := by
  cases s with
  | nil => exact absurd rfl hs
  | cons c s => exact h

/-- Behind a longest run stands a character that ended it, or nothing. -/
theorem startsOutside_drop_takeWhile (p : Char → Bool) (s : Text) :
    StartsOutside p (s.drop (s.takeWhile p).length) := by
  induction s with
  | nil => rfl
  | cons c s ih =>
    by_cases hc : p c
    · simpa [hc] using ih
    · simp [hc]

/-- Blanks that end before the text does are skipped in the same way whatever is appended. -/
theorem skipBlanks_append_of_ne_nil {s : Text} (h : s.skipBlanks ≠ []) (t : Text) :
    skipBlanks (s ++ t) = s.skipBlanks ++ t := by
  obtain ⟨w, hw, hs⟩ := s.exists_blank_append
  have hout := (startsOutside_skipBlanks s).append h t
  calc skipBlanks (s ++ t) = skipBlanks (w ++ (s.skipBlanks ++ t)) := by
        rw [← List.append_assoc, ← hs]
    _ = s.skipBlanks ++ t := by rw [skipBlanks_append hw, skipBlanks_of_outside hout]

end Text

/-- No word character follows a function name that has been found. -/
theorem startsOutside_drop_functionNameAt {s : Text} (h : functionNameAt s ≠ []) :
    Text.StartsOutside isWordChar (s.drop (functionNameAt s).length) := by
  simp only [functionNameAt] at h ⊢
  split at h
  next ha =>
    rw [if_pos ha, List.length_append, ← List.drop_drop]
    have hword := Text.startsOutside_drop_takeWhile isWordChar s
    change Text.StartsOutside isWordChar (s.drop (wordAt s).length) at hword
    generalize s.drop (wordAt s).length = t at hword
    cases t with
    | nil => rfl
    | cons c t =>
      rw [dottedSuffixAt]
      split
      · exact Text.startsOutside_drop_takeWhile isWordChar t
      · exact hword
  next => exact absurd rfl h

/-- The scan of a numeral stops before the first character that is no digit. -/
theorem Numeral.startsOutside_drop_scan (s : Text) :
    Text.StartsOutside Char.isDigit (s.drop (scan s).length) := by
  fun_cases scan s with
  | case1 s => exact Text.startsOutside_drop_takeWhile Char.isDigit s
  | case2 s => exact Text.startsOutside_drop_takeWhile Char.isDigit s

/-- No quote follows a closing quote. -/
theorem Quoted.head?_of_body {s v rest : Text} (h : body s = some (v, rest)) :
    rest.head? ≠ some '\x27' := by
  fun_induction body s generalizing v with
  | case1 => cases h
  | case2 s ih =>
    obtain ⟨⟨w, r⟩, hw, heq⟩ := Option.map_eq_some_iff.1 h
    obtain ⟨rfl, rfl⟩ := Prod.mk.inj heq
    exact ih hw
  | case3 s hs =>
    obtain ⟨rfl, rfl⟩ := Prod.mk.inj (Option.some.inj h)
    intro hq
    obtain ⟨t, rfl⟩ := List.head?_eq_some_iff.1 hq
    exact hs t rfl rfl
  | case4 c s _ _ ih =>
    obtain ⟨⟨w, r⟩, hw, heq⟩ := Option.map_eq_some_iff.1 h
    obtain ⟨rfl, rfl⟩ := Prod.mk.inj heq
    exact ih hw

/-- A call can be seen where a function name stands, blanks and an opening parenthesis. -/
theorem isCallAt_iff {s : Text} :
    isCallAt s ↔ ∃ name w t : Text, s = name ++ (w ++ '(' :: t) ∧ IsFunctionName name ∧
      w.IsBlank := by
  constructor
  · intro h
    simp only [isCallAt, Bool.and_eq_true, beq_iff_eq] at h
    obtain ⟨hne, hopen⟩ := h
    have hname : functionNameAt s ≠ [] := by simpa using hne
    obtain ⟨t, ht⟩ := List.head?_eq_some_iff.1 hopen
    obtain ⟨w, hw, hrest⟩ := Text.exists_blank_append (s.drop (functionNameAt s).length)
    refine ⟨functionNameAt s, w, t, ?_, isFunctionName_functionNameAt hname, hw⟩
    rw [← ht, ← hrest]
    exact (List.prefix_iff_eq_append.1 (functionNameAt_isPrefix s)).symm
  · rintro ⟨name, w, t, rfl, hname, hw⟩
    exact isCallAt_append hname hw t

/-- A call that has been seen is one whatever follows. -/
theorem isCallAt_append_right {s : Text} (h : isCallAt s) (t : Text) : isCallAt (s ++ t) := by
  obtain ⟨name, w, r, rfl, hname, hw⟩ := isCallAt_iff.1 h
  rw [List.append_assoc, List.append_assoc, List.cons_append]
  exact isCallAt_append hname hw _

/-- Of all function names that a text starts with, the longest one is found. -/
theorem isLongestPrefix_functionNameAt {s : Text} (h : functionNameAt s ≠ []) :
    (functionNameAt s).IsLongestPrefix IsFunctionName s := by
  refine ⟨functionNameAt_isPrefix s, isFunctionName_functionNameAt h, fun v hv hname => ?_⟩
  cases hname with
  | @plain c w hc hw =>
    have hword : ∀ d ∈ c :: w, isWordChar d :=
      List.forall_mem_cons.2 ⟨isWordChar_of_isAlpha hc, hw⟩
    have hle : (c :: w).length ≤ (wordAt s).length := Text.length_le_length_takeWhile hv hword
    have halpha : s.head?.any Char.isAlpha := by
      obtain ⟨t, rfl⟩ := hv
      simpa using hc
    rw [functionNameAt, if_pos halpha, List.length_append]
    exact Nat.le_trans hle (Nat.le_add_right _ _)
  | @dotted c w v hc hw hrun =>
    obtain ⟨t, rfl⟩ := hv
    have hle : v.length ≤ (wordAt (v ++ t)).length :=
      Text.length_le_length_takeWhile (List.prefix_append v t) hrun.2
    rw [functionNameAt_dotted hc hw hrun]
    simp only [List.length_cons, List.length_append]
    omega

namespace Reader

theorem startsOutside_of_number {s rest : Text} {n : Int64} (h : number s = .done n rest) :
    rest.StartsOutside Char.isDigit := by
  simp only [number] at h
  split at h
  next =>
    cases h
    exact Numeral.startsOutside_drop_scan s
  next => cases h

/-- A string ends at a quote that no other quote follows. -/
theorem head?_of_quoted {s rest : Text} {v : String} (h : quoted s = .done v rest) :
    rest.head? ≠ some '\x27' := by
  simp only [quoted] at h
  split at h
  next =>
    split at h
    next hbody =>
      cases h
      exact Quoted.head?_of_body hbody
    next => cases h
  next => cases h

/-- No word character follows a boolean. -/
theorem startsOutside_of_boolean {s rest : Text} {b : Bool}
    (h : boolean s = .done (some b) rest) : rest.StartsOutside isWordChar := by
  have hend (w : Text) (hw : isWordAt w s) : Text.StartsOutside isWordChar (s.drop w.length) := by
    have hlast := (Bool.and_eq_true_iff.1 hw).2
    rwa [Bool.not_eq_true'] at hlast
  simp only [boolean] at h
  split at h
  next htrue =>
    cases h
    exact hend _ htrue
  next =>
    split at h
    next hfalse =>
      cases h
      exact hend _ hfalse
    next => cases h

end Reader

end BracketExpr
