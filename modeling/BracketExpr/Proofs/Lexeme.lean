import BracketExpr.Lexeme.Name
import BracketExpr.Lexeme.Numeral
import BracketExpr.Lexeme.Quoted
import BracketExpr.Proofs.Reading

/-!
# Lexemes are read as the grammar has them

For each lexeme of the grammar two facts. What its reader takes is a lexeme with the value that
the reader gives, and a lexeme is taken whole, with its value, in front of any text that cannot
extend it. The second fact is where longest matches meet the grammar: its condition on the text
that follows is weak enough to hold behind every token of an expression.
-/

namespace BracketExpr

/-! ## Character classes -/

/-- The blanks of the language are the space, the tab and the two line-ending characters. -/
theorem isBlank_iff {c : Char} :
    isBlank c ↔ c = ' ' ∨ c = '\t' ∨ c = '\r' ∨ c = '\n' := by
  simp [isBlank, or_assoc]

/-- The characters that occur in function names. -/
def isNameChar (c : Char) : Bool :=
  isWordChar c || c == '.'

theorem isNameChar_of_isWordChar {c : Char} (h : isWordChar c) : isNameChar c := by
  simp [isNameChar, h]

theorem isWordChar_of_isAlpha {c : Char} (h : c.isAlpha) : isWordChar c := by
  simp [isWordChar, Char.isAlphanum, h]

/-- A blank ends a name: it may not stand inside one. -/
theorem isNameChar_eq_false_of_isBlank {c : Char} (h : isBlank c) : isNameChar c = false := by
  rcases isBlank_iff.1 h with rfl | rfl | rfl | rfl <;> decide

theorem isBlank_eq_false_of_isAlpha {c : Char} (h : c.isAlpha) : isBlank c = false := by
  refine Bool.eq_false_iff.2 fun hb => ?_
  have hn := isNameChar_eq_false_of_isBlank hb
  rw [isNameChar_of_isWordChar (isWordChar_of_isAlpha h)] at hn
  cases hn

/-- Blanks in front of a text do not start a class that has no blank. -/
theorem Text.StartsOutside.blank_append {p : Char → Bool} {w s : Text} (hw : w.IsBlank)
    (hp : ∀ c, isBlank c → p c = false) (hs : StartsOutside p s) : StartsOutside p (w ++ s) := by
  cases w with
  | nil => exact hs
  | cons c w => exact hp c (hw c List.mem_cons_self)

/-! ## Names -/

namespace Reader

/-- A scan that finds nothing leaves the cursor where it was. -/
theorem lexeme_read_of_nil {scan : Text → Text} {s : Text} (h : scan s = []) :
    lexeme scan s = .done none s := by
  simp only [lexeme, h]

/-- A scan that finds a text reads all of it, and stands right behind it. -/
theorem lexeme_read_of_ne_nil {scan : Text → Text} {s : Text} (h : scan s ≠ []) :
    lexeme scan s = .done (some (String.ofList (scan s))) (s.drop (scan s).length) := by
  obtain ⟨c, w, hw⟩ := List.exists_cons_of_ne_nil h
  simp only [lexeme, hw]

/-- A lexeme is found or missed. -/
theorem exists_lexeme_read (scan : Text → Text) (s : Text) :
    ∃ name? rest, lexeme scan s = .done name? rest := by
  by_cases h : scan s = []
  · exact ⟨_, _, lexeme_read_of_nil h⟩
  · exact ⟨_, _, lexeme_read_of_ne_nil h⟩

/-- A lexeme that is found is the scanned text, which the reader takes. -/
theorem lexeme_eq_some {scan : Text → Text} {s rest : Text} {name : String}
    (hscan : scan s <+: s) (h : lexeme scan s = .done (some name) rest) :
    scan s = name.toList ∧ name.toList ≠ [] ∧ s = name.toList ++ rest := by
  obtain ⟨t, ht⟩ := hscan
  simp only [lexeme] at h
  split at h
  next => cases h
  next c w hw =>
    cases h
    rw [hw] at ht
    refine ⟨by simp [hw], by simp, ?_⟩
    rw [← ht]
    simp

/-- A lexeme that is missed leaves the text as it is. -/
theorem lexeme_eq_none {scan : Text → Text} {s rest : Text}
    (h : lexeme scan s = .done none rest) : rest = s := by
  simp only [lexeme] at h
  split at h
  next => cases h; rfl
  next => cases h

/-- A reader of lexemes reads a name whenever its scan stops at the name's end. -/
theorem lexeme_append {scan : Text → Text} {name : String} {rest : Text}
    (hscan : scan (name.toList ++ rest) = name.toList) (hne : name.toList ≠ []) :
    lexeme scan (name.toList ++ rest) = .done (some name) rest := by
  simp only [lexeme]
  split
  next h =>
    rw [hscan] at h
    exact absurd h hne
  next c w h =>
    rw [hscan] at h
    simp [← h]

end Reader

theorem IsFunctionName.ne_nil {w : Text} (h : IsFunctionName w) : w ≠ [] := by
  cases h <;> simp

/-- A function name starts with a letter. -/
theorem IsFunctionName.exists_alpha {w : Text} (h : IsFunctionName w) :
    ∃ c v, w = c :: v ∧ c.isAlpha := by
  cases h with
  | plain hc => exact ⟨_, _, rfl, hc⟩
  | dotted hc => exact ⟨_, _, rfl, hc⟩

theorem wordAt_isPrefix (s : Text) : wordAt s <+: s :=
  List.takeWhile_prefix _

theorem wordAt_isWordChar {s : Text} : ∀ c ∈ wordAt s, isWordChar c :=
  List.all_eq_true.1 List.all_takeWhile

theorem dottedSuffixAt_isPrefix (s : Text) : dottedSuffixAt s <+: s := by
  cases s with
  | nil => exact List.prefix_rfl
  | cons c s =>
    simp only [dottedSuffixAt]
    split
    · exact (List.prefix_cons_inj c).2 (wordAt_isPrefix s)
    · exact List.nil_prefix

theorem functionNameAt_isPrefix (s : Text) : functionNameAt s <+: s := by
  simp only [functionNameAt]
  split
  · -- The suffix is a part of what follows the word.
    obtain ⟨t, ht⟩ := wordAt_isPrefix s
    have hdrop : s.drop (wordAt s).length = t := by
      calc s.drop (wordAt s).length = (wordAt s ++ t).drop (wordAt s).length := by rw [ht]
        _ = t := List.drop_left
    obtain ⟨u, hu⟩ := dottedSuffixAt_isPrefix t
    refine ⟨u, ?_⟩
    rw [hdrop, List.append_assoc, hu, ht]
  · exact List.nil_prefix

/-- No function name stands at a text exactly when the text does not start with a letter. -/
theorem functionNameAt_eq_nil {s : Text} :
    functionNameAt s = [] ↔ s.StartsOutside Char.isAlpha := by
  constructor
  · intro h
    refine Bool.eq_false_iff.2 fun ha => ?_
    cases s with
    | nil => simp at ha
    | cons c s =>
      have hc : c.isAlpha := by simpa using ha
      simp [functionNameAt, wordAt, hc, isWordChar_of_isAlpha hc] at h
  · intro h
    rw [functionNameAt, if_neg]
    rw [h]
    exact Bool.false_ne_true

/-- The scan for a function name finds a function name, if it finds anything. -/
theorem isFunctionName_functionNameAt {s : Text} (h : functionNameAt s ≠ []) :
    IsFunctionName (functionNameAt s) := by
  simp only [functionNameAt] at h ⊢
  split at h
  next ha =>
    rw [if_pos ha]
    cases s with
    | nil => simp at ha
    | cons c s =>
      have hc : c.isAlpha := by simpa using ha
      have hw : wordAt (c :: s) = c :: wordAt s := by
        simp [wordAt, isWordChar_of_isAlpha hc]
      rw [hw]
      generalize (c :: s).drop (c :: wordAt s).length = t
      cases t with
      | nil => simpa [dottedSuffixAt] using IsFunctionName.plain hc wordAt_isWordChar
      | cons d t =>
        simp only [dottedSuffixAt]
        split
        next hd =>
          obtain ⟨rfl, hd⟩ : d = '.' ∧ t.head?.any isWordChar = true := by simpa using hd
          refine IsFunctionName.dotted hc wordAt_isWordChar ⟨?_, wordAt_isWordChar⟩
          cases t with
          | nil => simp at hd
          | cons d t => simp_all [wordAt]
        next => simpa using IsFunctionName.plain hc wordAt_isWordChar
  next => exact absurd rfl h

/-- Behind a word and a point, the suffix of a function name goes as far as word characters do. -/
theorem functionNameAt_dotted {c : Char} {w v : Text} (hc : c.isAlpha)
    (hw : ∀ d ∈ w, isWordChar d) (hv : v.IsRun isWordChar) (rest : Text) :
    functionNameAt (c :: (w ++ '.' :: v) ++ rest) = c :: (w ++ '.' :: wordAt (v ++ rest)) := by
  have hcw : ∀ d ∈ c :: w, isWordChar d := List.forall_mem_cons.2 ⟨isWordChar_of_isAlpha hc, hw⟩
  have hassoc : c :: (w ++ '.' :: v) ++ rest = c :: w ++ '.' :: (v ++ rest) := by simp
  have hat : wordAt (c :: w ++ '.' :: (v ++ rest)) = c :: w :=
    Text.takeWhile_append_of_outside hcw (Text.startsOutside_cons.2 (by decide))
  have hhead : (v ++ rest).head?.any isWordChar = true := by
    obtain ⟨d, u, rfl⟩ := List.exists_cons_of_ne_nil hv.1
    simpa using hv.2 d List.mem_cons_self
  simp only [functionNameAt, hassoc, hat, List.drop_left, dottedSuffixAt, hhead]
  simp [hc]

/-- A function name is found whole in front of a text that does not go on like one. -/
theorem functionNameAt_append {name rest : Text} (h : IsFunctionName name)
    (hr : rest.StartsOutside isNameChar) : functionNameAt (name ++ rest) = name := by
  have hword : rest.StartsOutside isWordChar := hr.mono fun c => isNameChar_of_isWordChar
  cases h with
  | @plain c w hc hw =>
    have hcw : ∀ d ∈ c :: w, isWordChar d := List.forall_mem_cons.2 ⟨isWordChar_of_isAlpha hc, hw⟩
    have hat : wordAt (c :: w ++ rest) = c :: w := Text.takeWhile_append_of_outside hcw hword
    have hsuffix : dottedSuffixAt rest = [] := by
      cases rest with
      | nil => rfl
      | cons d rest =>
        have hd : d ≠ '.' := by
          rintro rfl
          exact absurd (Text.startsOutside_cons.1 hr) (by decide)
        simp [dottedSuffixAt, hd]
    simp only [functionNameAt, hat, List.drop_left, hsuffix]
    simp [hc]
  | @dotted c w v hc hw hv =>
    rw [functionNameAt_dotted hc hw hv, wordAt, Text.takeWhile_append_of_outside hv.2 hword]

theorem isMemberName_memberNameAt {s : Text} (h : memberNameAt s ≠ []) :
    IsMemberName (memberNameAt s) :=
  ⟨h, List.all_eq_true.1 List.all_takeWhile⟩

namespace Reader

/-- A function name that was read stands in the text, right before what is left. -/
theorem functionName_eq_some {s rest : Text} {name : String}
    (h : functionName s = .done (some name) rest) :
    IsFunctionName name.toList ∧ s = name.toList ++ rest := by
  obtain ⟨hscan, hne, hs⟩ := lexeme_eq_some (functionNameAt_isPrefix s) h
  rw [← hscan] at hne
  exact ⟨hscan ▸ isFunctionName_functionNameAt hne, hs⟩

/-- A function name is read whole when what follows it cannot be part of a name. -/
theorem functionName_append {name : String} {rest : Text} (h : IsFunctionName name.toList)
    (hr : rest.StartsOutside isNameChar) :
    functionName (name.toList ++ rest) = .done (some name) rest :=
  lexeme_append (functionNameAt_append h hr) h.ne_nil

theorem memberName_eq_some {s rest : Text} {name : String}
    (h : memberName s = .done (some name) rest) :
    IsMemberName name.toList ∧ s = name.toList ++ rest := by
  obtain ⟨hscan, hne, hs⟩ := lexeme_eq_some (List.takeWhile_prefix _) h
  rw [← hscan] at hne
  exact ⟨hscan ▸ isMemberName_memberNameAt hne, hs⟩

theorem memberName_append {name : String} {rest : Text} (h : IsMemberName name.toList)
    (hr : rest.StartsOutside isMemberChar) :
    memberName (name.toList ++ rest) = .done (some name) rest :=
  lexeme_append (Text.takeWhile_append_of_outside h.2 hr) h.1

end Reader

/-! ## Calls

Whether a word is a call is decided by looking past it. -/

@[simp]
theorem Reader.atCall_read (s : Text) : atCall s = .done (isCallAt s) s := rfl

/-- A name, blanks and an opening parenthesis are a call, whatever stands behind them. -/
theorem isCallAt_append {name w : Text} (h : IsFunctionName name) (hw : w.IsBlank) (s : Text) :
    isCallAt (name ++ (w ++ '(' :: s)) := by
  have hr : Text.StartsOutside isNameChar (w ++ '(' :: s) :=
    .blank_append hw (fun _ => isNameChar_eq_false_of_isBlank)
      (Text.startsOutside_cons.2 (by decide))
  have hskip : Text.skipBlanks (w ++ '(' :: s) = '(' :: s := by
    rw [Text.skipBlanks_append hw,
      Text.skipBlanks_of_outside (Text.startsOutside_cons.2 (by decide))]
  simp [isCallAt, functionNameAt_append h hr, hskip, h.ne_nil]

/-- A function name that no parenthesis follows is not a call. -/
theorem isCallAt_append_eq_false {name rest : Text} (h : IsFunctionName name)
    (hr : rest.StartsOutside isNameChar) (hskip : (Text.skipBlanks rest).head? ≠ some '(') :
    isCallAt (name ++ rest) = false := by
  simp [isCallAt, functionNameAt_append h hr, hskip]

/-- A text that does not start with a letter is no call. -/
theorem isCallAt_eq_false_of_head {s : Text} (h : s.StartsOutside Char.isAlpha) :
    isCallAt s = false := by
  simp [isCallAt, functionNameAt_eq_nil.2 h]

/-! ## Booleans -/

/-- Each boolean literal is spelled like a function name: what stands behind it decides which of the
two it is. -/
theorem isFunctionName_booleanText (b : Bool) : IsFunctionName (booleanText b) := by
  cases b <;> exact .plain (by decide) (List.all_eq_true.1 rfl)

namespace Reader

/-- A boolean that was read is spelled out in the text, right before what is left. -/
theorem boolean_eq_some {s rest : Text} {b : Bool} (h : boolean s = .done (some b) rest) :
    s = booleanText b ++ rest := by
  have hprefix : ∀ w : Text, isWordAt w s → s = w ++ s.drop w.length := by
    intro w hw
    simp only [isWordAt, Bool.and_eq_true, List.isPrefixOf_iff_prefix] at hw
    obtain ⟨t, rfl⟩ := hw.1
    rw [List.drop_left]
  simp only [boolean] at h
  split at h
  next ht =>
    cases h
    exact hprefix _ ht
  next =>
    split at h
    next hf =>
      cases h
      exact hprefix _ hf
    next => cases h

/-- Reading a boolean never fails: it only may find none. -/
theorem exists_boolean_read (s : Text) : ∃ b? rest, boolean s = .done b? rest := by
  simp only [boolean]
  split
  · exact ⟨_, _, rfl⟩
  · split <;> exact ⟨_, _, rfl⟩

/-- Where no boolean is found, nothing is read. -/
theorem boolean_eq_none {s rest : Text} (h : boolean s = .done none rest) : rest = s := by
  simp only [boolean] at h
  split at h
  next => cases h
  next =>
    split at h
    next => cases h
    next => cases h; rfl

/-- The words `true` and `false` are booleans unless a longer word starts with them. -/
theorem boolean_read_append (b : Bool) (t : Text) :
    boolean (booleanText b ++ t) =
      if t.head?.any isWordChar then .done none (booleanText b ++ t) else .done (some b) t := by
  have hself : isWordAt (booleanText b) (booleanText b ++ t) = !t.head?.any isWordChar := by
    have hprefix : (booleanText b).isPrefixOf (booleanText b ++ t) :=
      List.isPrefixOf_iff_prefix.2 (List.prefix_append _ t)
    rw [isWordAt, hprefix, List.drop_left, Bool.true_and]
  cases b with
  | true =>
    have hother : isWordAt (booleanText false) (booleanText true ++ t) = false := rfl
    simp only [boolean, hself, hother, List.drop_left]
    cases t.head?.any isWordChar <;> rfl
  | false =>
    have hother : isWordAt (booleanText true) (booleanText false ++ t) = false := rfl
    simp only [boolean, hself, hother, List.drop_left]
    cases t.head?.any isWordChar <;> rfl

/-- A boolean literal is read when no word character follows it. -/
theorem boolean_append (b : Bool) {rest : Text} (hr : rest.StartsOutside isWordChar) :
    boolean (booleanText b ++ rest) = .done (some b) rest := by
  have hr' : rest.head?.any isWordChar = false := hr
  rw [boolean_read_append, hr']
  rfl

end Reader

/-! ## Numerals -/

namespace Numeral

/-- The checked conversion gives a machine integer exactly when one has that value. -/
theorem int64?_eq_some {k : Int} {n : Int64} : int64? k = some n ↔ n.toInt = k := by
  simp only [int64?]
  constructor
  · intro h
    split at h
    next hk =>
      obtain rfl := Option.some.inj h
      rw [Int64.toInt_minValue, Int64.toInt_maxValue] at hk
      exact Int64.toInt_ofInt_of_le hk.1 (Int.lt_of_le_sub_one hk.2)
    next => cases h
  · rintro rfl
    rw [if_pos ⟨n.minValue_le_toInt, n.toInt_le⟩, Int64.ofInt_toInt]

/-- A non-empty run of digits has a value, and it is the number written in base ten. -/
theorem natural?_of_isRun {w : Text} (hw : w.IsRun Char.isDigit) :
    natural? w = some (Nat.ofDigitChars 10 w 0) := by
  simp [natural?, hw.1]

theorem ne_minus_of_isRun {w : Text} (hw : w.IsRun Char.isDigit) (v : Text) : w ≠ '-' :: v := by
  rintro rfl
  exact absurd (hw.2 '-' List.mem_cons_self) (by decide)

/-- The value that is computed from a numeral is the number it stands for. -/
theorem value?_of_isNumeral {w : Text} {n : Int64} (h : IsNumeral w n) :
    (value? w).bind int64? = some n := by
  cases h with
  | natural hw hn =>
    have hv : value? w = some (Nat.ofDigitChars 10 w 0 : Int) := by
      rw [value?.eq_2 w fun v hv => ne_minus_of_isRun hw v hv, natural?_of_isRun hw]
      rfl
    rw [hv, Option.bind_some, int64?_eq_some, hn]
  | @negative w _ hw hn =>
    have hv : value? ('-' :: w) = some (-(Nat.ofDigitChars 10 w 0 : Int)) := by
      rw [value?.eq_1, natural?_of_isRun hw]
      rfl
    rw [hv, Option.bind_some, int64?_eq_some, hn]

/-- Only a non-empty run of digits has a value. -/
theorem isRun_of_natural? {w : Text} {k : Nat} (hw : ∀ c ∈ w, c.isDigit)
    (h : natural? w = some k) : w.IsRun Char.isDigit ∧ k = Nat.ofDigitChars 10 w 0 := by
  simp only [natural?] at h
  split at h
  next => cases h
  next hne => exact ⟨⟨by simpa using hne, hw⟩, (Option.some.inj h).symm⟩

theorem scan_isPrefix (s : Text) : scan s <+: s := by
  fun_cases scan s with
  | case1 s => exact (List.prefix_cons_inj '-').2 (List.takeWhile_prefix _)
  | case2 s => exact List.takeWhile_prefix _

theorem takeWhile_isDigit {s : Text} : ∀ c ∈ s.takeWhile Char.isDigit, c.isDigit :=
  List.all_eq_true.1 List.all_takeWhile

/-- A scanned text with a value is a numeral for it. -/
theorem isNumeral_scan {s : Text} {n : Int64} (h : (value? (scan s)).bind int64? = some n) :
    IsNumeral (scan s) n := by
  obtain ⟨k, hk, hn⟩ := Option.bind_eq_some_iff.1 h
  have hn := int64?_eq_some.1 hn
  fun_cases scan s with
  | case1 s =>
    rw [scan, value?] at hk
    obtain ⟨m, hm, rfl⟩ := Option.map_eq_some_iff.1 hk
    obtain ⟨hrun, rfl⟩ := isRun_of_natural? takeWhile_isDigit hm
    exact .negative hrun hn
  | case2 s hs =>
    rw [scan.eq_2 s hs] at hk
    have hne : ∀ v, s.takeWhile Char.isDigit ≠ '-' :: v := by
      intro v hv
      have hmem : '-' ∈ s.takeWhile Char.isDigit := by rw [hv]; exact List.mem_cons_self
      exact absurd (takeWhile_isDigit _ hmem) (by decide)
    rw [value?.eq_2 _ hne] at hk
    obtain ⟨m, hm, rfl⟩ := Option.map_eq_some_iff.1 hk
    obtain ⟨hrun, rfl⟩ := isRun_of_natural? takeWhile_isDigit hm
    exact .natural hrun hn

/-- A numeral is scanned whole in front of a text that does not start with a digit. -/
theorem scan_append {w rest : Text} {n : Int64} (h : IsNumeral w n)
    (hr : rest.StartsOutside Char.isDigit) : scan (w ++ rest) = w := by
  cases h with
  | natural hw _ =>
    have hne : ∀ v, w ++ rest ≠ '-' :: v := by
      obtain ⟨c, u, rfl⟩ := List.exists_cons_of_ne_nil hw.1
      intro v hv
      obtain rfl : c = '-' := (List.cons.inj hv).1
      exact ne_minus_of_isRun hw u rfl
    rw [scan.eq_2 _ hne]
    exact Text.takeWhile_append_of_outside hw.2 hr
  | @negative w _ hw _ =>
    exact congrArg ('-' :: ·) (Text.takeWhile_append_of_outside hw.2 hr)

end Numeral

namespace Reader

/-- A number that was read is a numeral of the text with that value, right before what is left. -/
theorem number_eq_done {s rest : Text} {n : Int64} (h : number s = .done n rest) :
    ∃ w, s = w ++ rest ∧ IsNumeral w n := by
  simp only [number] at h
  split at h
  next m hm =>
    cases h
    refine ⟨Numeral.scan s, ?_, Numeral.isNumeral_scan hm⟩
    exact List.prefix_iff_eq_append.1 (Numeral.scan_isPrefix s) |>.symm
  next => cases h

/-- A numeral is read whole, with its value, when no digit follows it. -/
theorem number_append {w rest : Text} {n : Int64} (h : IsNumeral w n)
    (hr : rest.StartsOutside Char.isDigit) : number (w ++ rest) = .done n rest := by
  simp only [number, Numeral.scan_append h hr, Numeral.value?_of_isNumeral h, List.drop_left]

end Reader

/-! ## Quoted texts -/

namespace Quoted

/-- What is read up to the closing quote is the body of a quoted text. -/
theorem isQuotedBody_of_body {s v rest : Text} (h : body s = some (v, rest)) :
    ∃ b, s = b ++ '\x27' :: rest ∧ IsQuotedBody b v := by
  fun_induction body s generalizing v with
  | case1 => cases h
  | case2 s ih =>
    obtain ⟨⟨u, r⟩, hu, heq⟩ := Option.map_eq_some_iff.1 h
    obtain ⟨rfl, rfl⟩ := Prod.mk.inj heq
    obtain ⟨b, rfl, hb⟩ := ih hu
    exact ⟨_, rfl, .quote hb⟩
  | case3 s =>
    obtain ⟨rfl, rfl⟩ := Prod.mk.inj (Option.some.inj h)
    exact ⟨[], rfl, .nil⟩
  | case4 c s _ hc ih =>
    obtain ⟨⟨u, r⟩, hu, heq⟩ := Option.map_eq_some_iff.1 h
    obtain ⟨rfl, rfl⟩ := Prod.mk.inj heq
    obtain ⟨b, rfl, hb⟩ := ih hu
    exact ⟨_, rfl, .char hc hb⟩

/-- The body of a quoted text is read up to a closing quote that no other quote follows. -/
theorem body_append {b v rest : Text} (h : IsQuotedBody b v) (hr : rest.head? ≠ some '\x27') :
    body (b ++ '\x27' :: rest) = some (v, rest) := by
  induction h with
  | nil =>
    have hne : ∀ t, '\x27' = '\x27' → rest ≠ '\x27' :: t := by
      rintro t - rfl
      exact hr rfl
    rw [List.nil_append, body.eq_3 _ _ hne, if_pos rfl]
  | char hc _ ih =>
    rw [List.cons_append, body.eq_3 _ _ fun _ h => absurd h hc, if_neg hc, ih]
    rfl
  | quote _ ih =>
    rw [List.cons_append, List.cons_append, body.eq_2, ih]
    rfl

end Quoted

namespace Reader

/-- A string that was read stands in the text between quotes, with each quote of its content
doubled. -/
theorem quoted_eq_done {s rest : Text} {v : String} (h : quoted s = .done v rest) :
    ∃ w, s = w ++ rest ∧ IsQuoted w v.toList := by
  simp only [quoted] at h
  split at h
  next s =>
    split at h
    next u r hbody =>
      cases h
      obtain ⟨b, rfl, hb⟩ := Quoted.isQuotedBody_of_body hbody
      exact ⟨'\x27' :: (b ++ ['\x27']), by simp, b, rfl, by simpa using hb⟩
    next => cases h
  next => cases h

/-- A quoted text is read whole when no further quote follows, which would double the closing
one. -/
theorem quoted_append {w rest : Text} {v : String} (h : IsQuoted w v.toList)
    (hr : rest.head? ≠ some '\x27') : quoted (w ++ rest) = .done v rest := by
  obtain ⟨b, rfl, hb⟩ := h
  have heq : '\x27' :: (b ++ ['\x27']) ++ rest = '\x27' :: (b ++ '\x27' :: rest) := by simp
  rw [heq]
  simp only [quoted, Quoted.body_append hb hr, String.ofList_toList]

/-- Without an opening quote nothing is read, and the fault shows the place of the missing quote. -/
theorem quoted_of_head?_ne {s : Text} (h : s.head? ≠ some '\x27') :
    quoted s = .failed (.atStart .invalidArgument s) s := by
  simp only [quoted]
  split
  next => exact absurd rfl h
  next => rfl

end Reader

end BracketExpr
