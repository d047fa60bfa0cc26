import BracketExpr.Proofs.Soundness

/-!
# What is in the grammar is read

A text that a production derives is read as its tree in front of every text that may follow the
production, if the tree keeps to the nesting limit. The texts that may follow are described by
their first characters: `Text.EndsSteps` for expressions, which stop where no further step begins,
and `Text.Closes` for arguments and indices, which are followed by a comma or by what closes them.

A nested expression takes the blanks after it and a number does not, so readings are compared after
blanks have been skipped.
-/

namespace BracketExpr

/-! ## First characters -/

theorem IsNumeral.exists_head {w : Text} {n : Int64} (h : IsNumeral w n) :
    ∃ c v, w = c :: v ∧ startsNumber c := by
  cases h with
  | natural hw _ =>
    obtain ⟨c, v, rfl⟩ := List.exists_cons_of_ne_nil hw.1
    exact ⟨c, v, rfl, by simp [startsNumber, hw.2 c List.mem_cons_self]⟩
  | negative hw _ => exact ⟨'-', _, rfl, by decide⟩

/-- Numbers and names start with different characters. -/
theorem isAlpha_eq_false_of_startsNumber {c : Char} (h : startsNumber c) : c.isAlpha = false := by
  simp only [startsNumber, Bool.or_eq_true, beq_iff_eq] at h
  rcases h with h | rfl
  · have hdigit : ('0'.val ≤ c.val && c.val ≤ '9'.val) = true := h
    show (decide ('A'.val ≤ c.val ∧ c.val ≤ 'Z'.val) ||
      ('a'.val ≤ c.val && c.val ≤ 'z'.val)) = false
    simp only [Bool.and_eq_true, decide_eq_true_eq, Bool.or_eq_false_iff, Bool.and_eq_false_iff,
      decide_eq_false_iff_not, UInt32.le_iff_toNat_le] at hdigit ⊢
    have h9 : ('9' : Char).val.toNat = 57 := rfl
    have hA : ('A' : Char).val.toNat = 65 := rfl
    have ha : ('a' : Char).val.toNat = 97 := rfl
    omega
  · decide

theorem startsNumber_eq_false_of_isAlpha {c : Char} (h : c.isAlpha) : startsNumber c = false := by
  refine Bool.eq_false_iff.2 fun hc => ?_
  rw [isAlpha_eq_false_of_startsNumber hc] at h
  cases h

theorem ne_quote_of_isAlpha {c : Char} (h : c.isAlpha) : c ≠ '\x27' := by
  rintro rfl
  exact absurd h (by decide)

theorem isBlank_eq_false_of_startsNumber {c : Char} (h : startsNumber c) : isBlank c = false := by
  refine Bool.eq_false_iff.2 fun hb => ?_
  rcases isBlank_iff.1 hb with rfl | rfl | rfl | rfl <;> exact absurd h (by decide)

namespace Grammar

/-- An expression starts with the first letter of a function name. -/
theorem Expression.exists_head {s : Text} {e : Expr} (h : Expression s e) :
    ∃ c v, s = c :: v ∧ c.isAlpha := by
  cases h with
  | mk hname =>
    obtain ⟨c, v, hc, ha⟩ := hname.exists_alpha
    exact ⟨c, _, by rw [hc]; rfl, ha⟩

/-- In front of an expression a call can be seen, whatever stands behind it. -/
theorem Expression.isCallAt_append {s : Text} {e : Expr} (h : Expression s e) (rest : Text) :
    isCallAt (s ++ rest) := by
  cases h with
  | @mk name w₁ w₂ w₃ a t args steps hname hw₁ =>
    rw [List.append_assoc, List.append_assoc]
    exact BracketExpr.isCallAt_append hname hw₁ _

/-- An argument starts with a character that is neither blank nor the closing parenthesis, so it is
not taken for the end of the list. -/
theorem Arg.exists_head {s : Text} {a : Argument} (h : Arg s a) :
    ∃ c v, s = c :: v ∧ isBlank c = false ∧ c ≠ ')' := by
  cases h with
  | num h =>
    obtain ⟨c, v, rfl, hc⟩ := h.exists_head
    refine ⟨c, v, rfl, isBlank_eq_false_of_startsNumber hc, ?_⟩
    rintro rfl
    exact absurd hc (by decide)
  | str h =>
    obtain ⟨b, rfl, _⟩ := h
    exact ⟨_, _, rfl, by decide, by decide⟩
  | bool b => cases b <;> exact ⟨_, _, rfl, by decide, by decide⟩
  | expr h =>
    obtain ⟨c, v, rfl, hc⟩ := h.exists_head
    refine ⟨c, v, rfl, isBlank_eq_false_of_isAlpha hc, ?_⟩
    rintro rfl
    exact absurd hc (by decide)

/-- Blanks in front of an index value are not part of it. -/
theorem IndexValue.exists_head {s : Text} {i : Index} (h : IndexValue s i) :
    ∃ c v, s = c :: v ∧ isBlank c = false := by
  cases h with
  | expr h =>
    obtain ⟨c, v, rfl, hc⟩ := h.exists_head
    exact ⟨c, v, rfl, isBlank_eq_false_of_isAlpha hc⟩
  | num h =>
    obtain ⟨c, v, rfl, hc⟩ := h.exists_head
    exact ⟨c, v, rfl, isBlank_eq_false_of_startsNumber hc⟩
  | property h =>
    obtain ⟨b, rfl, _⟩ := h
    exact ⟨_, _, rfl, by decide⟩

end Grammar

/-! ## What may follow -/

namespace Text

/-- After blanks comes a comma, a closing parenthesis or a closing bracket. -/
def Closes (s : Text) : Prop :=
  ∃ c t, skipBlanks s = c :: t ∧ (c = ',' ∨ c = ')' ∨ c = ']')

/-- The text extends no member name, and after blanks it does not begin a step. -/
def EndsSteps (s : Text) : Prop :=
  StartsOutside isMemberChar s ∧ StartsOutside (fun c => c == '.' || c == '[') (skipBlanks s)

/-- Skipping blanks stops in front of a character that is none. -/
theorem skipBlanks_blank_append_cons {w s : Text} {c : Char} (hw : w.IsBlank)
    (hc : isBlank c = false) : skipBlanks (w ++ c :: s) = c :: s := by
  rw [skipBlanks_append hw, skipBlanks_of_outside (startsOutside_cons.2 hc)]

/-- Blanks and then a comma or a closing bracket end what stands before them. -/
theorem closes_blank_append_cons {w s : Text} {c : Char} (hw : w.IsBlank)
    (hc : c = ',' ∨ c = ')' ∨ c = ']') : Closes (w ++ c :: s) := by
  refine ⟨c, s, skipBlanks_blank_append_cons hw ?_, hc⟩
  rcases hc with rfl | rfl | rfl <;> decide

/-- A text that closes starts with a blank or with what closes it. -/
theorem Closes.startsOutside {s : Text} (h : s.Closes) {p : Char → Bool}
    (hblank : ∀ c, isBlank c → p c = false) (hp : p ',' = false ∧ p ')' = false ∧ p ']' = false) :
    StartsOutside p s := by
  obtain ⟨c, t, hskip, hc⟩ := h
  obtain ⟨w, hw, hs⟩ := exists_blank_append s
  rw [hs, hskip]
  refine .blank_append hw hblank (startsOutside_cons.2 ?_)
  rcases hc with rfl | rfl | rfl
  · exact hp.1
  · exact hp.2.1
  · exact hp.2.2

theorem isMemberChar_eq_false_of_isBlank {c : Char} (h : isBlank c) : isMemberChar c = false := by
  rcases isBlank_iff.1 h with rfl | rfl | rfl | rfl <;> decide

/-- What ends a list item does not go on with a name. -/
theorem Closes.startsOutside_isNameChar {s : Text} (h : s.Closes) : StartsOutside isNameChar s :=
  h.startsOutside (fun c => isNameChar_eq_false_of_isBlank) (by decide)

theorem Closes.startsOutside_isDigit {s : Text} (h : s.Closes) : StartsOutside Char.isDigit s := by
  refine h.startsOutside_isNameChar.mono fun c hc => isNameChar_of_isWordChar ?_
  simp [isWordChar, Char.isAlphanum, hc]

/-- What ends a list item does not start with a quote, so no quoted text before it goes on. -/
theorem Closes.head?_ne_quote {s : Text} (h : s.Closes) : s.head? ≠ some '\x27' := by
  intro hq
  obtain ⟨t, rfl⟩ := List.head?_eq_some_iff.1 hq
  have hout : StartsOutside (· == '\x27') ('\x27' :: t) := by
    refine h.startsOutside (fun c hc => ?_) (by decide)
    rcases isBlank_iff.1 hc with rfl | rfl | rfl | rfl <;> decide
  exact absurd (startsOutside_cons.1 hout) (by decide)

/-- What ends a list item also ends the steps of an expression before it. -/
theorem Closes.endsSteps {s : Text} (h : s.Closes) : s.EndsSteps := by
  refine ⟨h.startsOutside (fun c => isMemberChar_eq_false_of_isBlank) (by decide), ?_⟩
  obtain ⟨c, t, hskip, hc⟩ := h
  rw [hskip, startsOutside_cons]
  rcases hc with rfl | rfl | rfl <;> decide

end Text

/-- Further arguments begin with blanks and a comma, so they may follow an argument. -/
theorem Grammar.FurtherArguments.closes_append {t rest : Text} {args : List Argument}
    (h : FurtherArguments t args) (hr : rest.Closes) : Text.Closes (t ++ rest) := by
  cases h with
  | nil => exact hr
  | cons hw₁ =>
    rw [List.append_assoc]
    exact Text.closes_blank_append_cons hw₁ (.inl rfl)

/-- Steps begin with blanks, a point or a bracket, so they do not extend a member name. -/
theorem Grammar.Steps.startsOutside_append {t rest : Text} {xs : List Step} (h : Steps t xs)
    (hr : rest.StartsOutside isMemberChar) : Text.StartsOutside isMemberChar (t ++ rest) := by
  cases h with
  | nil => exact hr
  | cons hw hx =>
    rw [List.append_assoc, List.append_assoc]
    refine .blank_append hw (fun c => Text.isMemberChar_eq_false_of_isBlank) ?_
    cases hx <;> exact Text.startsOutside_cons.2 (by decide)

/-! ## Arguments -/

namespace Reader

open Production

/-- The reader takes every expression of the grammar that keeps to the limit, and the blanks after
it, in front of every text at which an expression ends. -/
def Complete (limit : Nat) (r : Reader Expr) : Prop :=
  ∀ t e rest, ExpressionWithin limit t e → Text.EndsSteps rest →
    r (t ++ rest) = .done e rest.skipBlanks

variable {nested : Reader Expr} {limit : Nat}

/-! The character at the cursor decides what an argument or an index is read as. -/

/-- A digit or a sign makes the argument a number. -/
theorem argument_of_number {c : Char} {s rest : Text} {n : Int64} (hc : startsNumber c)
    (h : number (c :: s) = .done n rest) : argument nested (c :: s) = .done (.num n) rest := by
  rw [argument, lex_current, bind_read_of_done (current_read _)]
  dsimp only [List.head?_cons]
  rw [if_pos hc, lex_number, bind_read_of_done h, pure_read]

/-- A quote makes the argument a quoted text. -/
theorem argument_of_quoted {s rest : Text} {v : String}
    (h : quoted ('\x27' :: s) = .done v rest) :
    argument nested ('\x27' :: s) = .done (.str v) rest := by
  rw [argument, lex_current, bind_read_of_done (current_read _)]
  dsimp only [List.head?_cons]
  rw [if_neg (by decide), if_pos rfl, lex_quoted, bind_read_of_done h, pure_read]

/-- A word with a parenthesis behind it makes the argument a nested expression. -/
theorem argument_of_isCallAt {c : Char} {s rest : Text} {e : Expr} (hc : c.isAlpha)
    (hcall : isCallAt (c :: s)) (h : nested (c :: s) = .done e rest) :
    argument nested (c :: s) = .done (.expr e) rest := by
  have hnumber : ¬ startsNumber c := by simp [startsNumber_eq_false_of_isAlpha hc]
  rw [argument, lex_current, bind_read_of_done (current_read _)]
  dsimp only [List.head?_cons]
  rw [if_neg hnumber, if_neg (ne_quote_of_isAlpha hc), lex_atCall,
    bind_read_of_done (atCall_read _), if_pos hcall, bind_read_of_done h, pure_read]

/-- A word without a parenthesis behind it has to be a boolean. -/
theorem argument_of_boolean {c : Char} {s rest : Text} {b : Bool} (hc : c.isAlpha)
    (hcall : isCallAt (c :: s) = false) (h : boolean (c :: s) = .done (some b) rest) :
    argument nested (c :: s) = .done (.bool b) rest := by
  have hnumber : ¬ startsNumber c := by simp [startsNumber_eq_false_of_isAlpha hc]
  rw [argument, lex_current, bind_read_of_done (current_read _)]
  dsimp only [List.head?_cons]
  rw [if_neg hnumber, if_neg (ne_quote_of_isAlpha hc), lex_atCall,
    bind_read_of_done (atCall_read _), hcall, if_neg Bool.false_ne_true, lex_boolean,
    bind_read_of_done h]
  rfl

/-- Every argument of the grammar is read, up to blanks behind it that may be left. -/
theorem argument_complete (hnested : nested.Complete limit) {s rest : Text} {a : Argument}
    (h : Grammar.Arg s a) (hd : a.depth ≤ limit) (hr : rest.Closes) :
    ∃ mid, argument nested (s ++ rest) = .done a mid ∧ mid.skipBlanks = rest.skipBlanks := by
  have hword := hr.startsOutside_isNameChar
  cases h with
  | num h =>
    have hnum := number_append h hr.startsOutside_isDigit
    obtain ⟨c, v, rfl, hc⟩ := h.exists_head
    exact ⟨rest, argument_of_number hc hnum, rfl⟩
  | str h =>
    have hstr := quoted_append h hr.head?_ne_quote
    obtain ⟨b, rfl, _⟩ := h
    exact ⟨rest, argument_of_quoted hstr, rfl⟩
  | bool b =>
    -- No parenthesis follows, so the word is not taken for the name of a function.
    have hcall : isCallAt (booleanText b ++ rest) = false := by
      refine isCallAt_append_eq_false (isFunctionName_booleanText b) hword ?_
      obtain ⟨c, t, hskip, hc⟩ := hr
      rw [hskip, List.head?_cons]
      rcases hc with rfl | rfl | rfl <;> decide
    have hbool := boolean_append b (hword.mono fun c => isNameChar_of_isWordChar)
    obtain ⟨c, v, hb, hc⟩ := (isFunctionName_booleanText b).exists_alpha
    rw [hb, List.cons_append] at hcall hbool ⊢
    exact ⟨rest, argument_of_boolean hc hcall hbool, rfl⟩
  | expr h =>
    have hcall := h.isCallAt_append rest
    have hexpr := hnested s _ rest ⟨h, hd⟩ hr.endsSteps
    obtain ⟨c, v, rfl, hc⟩ := h.exists_head
    refine ⟨rest.skipBlanks, ?_, Text.skipBlanks_skipBlanks rest⟩
    exact argument_of_isCallAt hc hcall hexpr

/-- The arguments behind the first one are read, each after its comma. -/
theorem furtherArguments_complete (hnested : nested.Complete limit) {t rest : Text}
    {args : List Argument} (h : Grammar.FurtherArguments t args)
    (hd : Argument.maxDepth args ≤ limit) {r : Text} (hr : rest.skipBlanks = ')' :: r) :
    chain (furtherArgument nested) (Text.skipBlanks (t ++ rest)) = .done args rest.skipBlanks := by
  induction args generalizing t with
  | nil =>
    cases h
    refine chainFrom_of_stop fun c hc => ?_
    rw [List.nil_append, hr] at hc
    obtain rfl : ')' = c := Option.some.inj hc
    rfl
  | cons a args ih =>
    cases h with
    | @cons w₁ w₂ s t _ _ hw₁ hw₂ ha hargs =>
      obtain ⟨hda, hdargs⟩ := Nat.max_le.1 hd
      have hcloses : Text.Closes (t ++ rest) := hargs.closes_append ⟨')', r, hr, .inr (.inl rfl)⟩
      obtain ⟨mid, hmid, hskip⟩ := argument_complete hnested ha hda hcloses
      obtain ⟨c, v, hs, hc, _⟩ := ha.exists_head
      have hitem : (do skipBlanks; let a ← argument nested; skipBlanks; return a : Reader Argument)
          (w₂ ++ (s ++ (t ++ rest))) = .done a (Text.skipBlanks (t ++ rest)) := by
        rw [bind_read_of_done (skipBlanks_read _)]
        have hhead : Text.skipBlanks (w₂ ++ (s ++ (t ++ rest))) = s ++ (t ++ rest) := by
          rw [hs, List.cons_append]
          exact Text.skipBlanks_blank_append_cons hw₂ hc
        rw [hhead, bind_read_of_done hmid, bind_read_of_done (skipBlanks_read _), hskip, pure_read]
      have hcomma : Text.skipBlanks (w₁ ++ ',' :: (w₂ ++ (s ++ t)) ++ rest) =
          ',' :: (w₂ ++ (s ++ (t ++ rest))) := by
        simp only [List.append_assoc, List.cons_append]
        exact Text.skipBlanks_blank_append_cons hw₁ (by decide)
      rw [hcomma]
      exact chainFrom_of_done rfl hitem (ih hargs hdargs)

/-- Every argument list of the grammar is read in front of its closing parenthesis. -/
theorem argumentList_complete (hnested : nested.Complete limit) {t rest : Text}
    {args : List Argument} (h : Grammar.Arguments t args) (hd : Argument.maxDepth args ≤ limit)
    {r : Text} (hr : rest.skipBlanks = ')' :: r) :
    argumentList nested (Text.skipBlanks (t ++ rest)) = .done args rest.skipBlanks := by
  cases h with
  | nil =>
    rw [List.nil_append, hr]
    rfl
  | @cons s t a args ha hargs =>
    obtain ⟨hda, hdargs⟩ := Nat.max_le.1 hd
    have hcloses : Text.Closes (t ++ rest) := hargs.closes_append ⟨')', r, hr, .inr (.inl rfl)⟩
    obtain ⟨mid, hmid, hskip⟩ := argument_complete hnested ha hda hcloses
    have hfurther := furtherArguments_complete hnested hargs hdargs hr
    obtain ⟨c, v, rfl, hc, hne⟩ := ha.exists_head
    have hhead : Text.skipBlanks (c :: v ++ t ++ rest) = c :: (v ++ (t ++ rest)) := by
      rw [List.append_assoc]
      exact Text.skipBlanks_blank_append_cons Text.isBlank_nil hc
    rw [List.cons_append] at hmid
    rw [hhead, argumentList, lex_current, bind_read_of_done (current_read _)]
    dsimp only [List.head?_cons]
    rw [if_neg hne, arguments, bind_read_of_done hmid, lex_skipBlanks,
      bind_read_of_done (skipBlanks_read _), hskip, lexer_chain, bind_read_of_done hfurther,
      pure_read]

/-! ## Calls -/

/-- A function name is read to its end, where no character goes on with it. -/
theorem calleeName_append {name : String} {rest : Text} (h : IsFunctionName name.toList)
    (hr : rest.StartsOutside isNameChar) :
    calleeName (m := Reader) (name.toList ++ rest) = .done name rest := by
  rw [calleeName, lex_functionName, bind_read_of_done (functionName_append h hr)]
  rfl

/-- Every call of the grammar is read, with blanks anywhere between its tokens. -/
theorem call_complete (hnested : nested.Complete limit) {name : String} {w₁ w₂ w₃ a : Text}
    {args : List Argument} (hname : IsFunctionName name.toList) (hw₁ : w₁.IsBlank)
    (hw₂ : w₂.IsBlank) (ha : Grammar.Arguments a args) (hw₃ : w₃.IsBlank)
    (hd : Argument.maxDepth args ≤ limit) (rest : Text) :
    call nested (name.toList ++ (w₁ ++ '(' :: (w₂ ++ (a ++ (w₃ ++ ')' :: rest))))) =
      .done ⟨name, args⟩ rest := by
  have hopen : Text.StartsOutside isNameChar (w₁ ++ '(' :: (w₂ ++ (a ++ (w₃ ++ ')' :: rest)))) :=
    .blank_append hw₁ (fun c => isNameChar_eq_false_of_isBlank)
      (Text.startsOutside_cons.2 (by decide))
  have hclose : Text.skipBlanks (w₃ ++ ')' :: rest) = ')' :: rest :=
    Text.skipBlanks_blank_append_cons hw₃ (by decide)
  rw [call, lex_skipBlanks, bind_read_of_done (calleeName_append hname hopen),
    bind_read_of_done (skipBlanks_read _),
    Text.skipBlanks_blank_append_cons hw₁ (by decide),
    bind_read_of_done (expect_read_self _ _ _), bind_read_of_done (skipBlanks_read _),
    Text.skipBlanks_append hw₂, bind_read_of_done (argumentList_complete hnested ha hd hclose),
    bind_read_of_done (skipBlanks_read _), Text.skipBlanks_skipBlanks, hclose,
    bind_read_of_done (expect_read_self _ _ _), pure_read]

/-! ## Steps -/

theorem index_of_isCallAt {s rest : Text} {e : Expr} (hcall : isCallAt s)
    (h : nested s = .done e rest) : index nested s = .done (.expr e) rest := by
  rw [index, lex_current, bind_read_of_done (current_read _)]
  cases s with
  | nil => exact absurd hcall (by decide)
  | cons c s =>
    dsimp only [List.head?_cons]
    rw [lex_atCall, bind_read_of_done (atCall_read _), if_pos hcall, bind_read_of_done h,
      pure_read]

theorem index_of_number {c : Char} {s rest : Text} {n : Int64} (hc : startsNumber c)
    (h : number (c :: s) = .done n rest) : index nested (c :: s) = .done (.num n) rest := by
  have hcall : isCallAt (c :: s) = false :=
    isCallAt_eq_false_of_head (Text.startsOutside_cons.2 (isAlpha_eq_false_of_startsNumber hc))
  rw [index, lex_current, bind_read_of_done (current_read _)]
  dsimp only [List.head?_cons]
  rw [lex_atCall, bind_read_of_done (atCall_read _), hcall, if_neg Bool.false_ne_true, if_pos hc,
    lex_number, bind_read_of_done h, pure_read]

theorem index_of_quoted {s rest : Text} {v : String} (h : quoted ('\x27' :: s) = .done v rest) :
    index nested ('\x27' :: s) = .done (.property v) rest := by
  have hcall : isCallAt ('\x27' :: s) = false :=
    isCallAt_eq_false_of_head (Text.startsOutside_cons.2 (by decide))
  rw [index, lex_current, bind_read_of_done (current_read _)]
  dsimp only [List.head?_cons]
  rw [lex_atCall, bind_read_of_done (atCall_read _), hcall, if_neg Bool.false_ne_true,
    if_neg (by decide), if_pos rfl, lex_quoted, bind_read_of_done h, pure_read]

/-- Every index value of the grammar is read, up to blanks behind it that may be left. -/
theorem index_complete (hnested : nested.Complete limit) {s rest : Text} {i : Index}
    (h : Grammar.IndexValue s i) (hd : i.depth ≤ limit) (hr : rest.Closes) :
    ∃ mid, index nested (s ++ rest) = .done i mid ∧ mid.skipBlanks = rest.skipBlanks := by
  cases h with
  | expr h =>
    have hexpr := hnested s _ rest ⟨h, hd⟩ hr.endsSteps
    refine ⟨rest.skipBlanks, ?_, Text.skipBlanks_skipBlanks rest⟩
    exact index_of_isCallAt (h.isCallAt_append rest) hexpr
  | num h =>
    have hnum := number_append h hr.startsOutside_isDigit
    obtain ⟨c, v, rfl, hc⟩ := h.exists_head
    exact ⟨rest, index_of_number hc hnum, rfl⟩
  | property h =>
    have hprop := quoted_append h hr.head?_ne_quote
    obtain ⟨b, rfl, _⟩ := h
    exact ⟨rest, index_of_quoted hprop, rfl⟩

/-- A member name is read behind blanks, up to the first character that is not part of it. -/
theorem memberStep_complete {name : String} {w rest : Text} (hw : w.IsBlank)
    (hname : IsMemberName name.toList) (hr : rest.StartsOutside isMemberChar) :
    memberStep (m := Reader) (w ++ (name.toList ++ rest)) = .done (.member name) rest := by
  -- No member character is blank, so the name is where skipping stops.
  have hskip : Text.skipBlanks (name.toList ++ rest) = name.toList ++ rest := by
    obtain ⟨c, v, hc⟩ := List.exists_cons_of_ne_nil hname.1
    refine Text.skipBlanks_of_outside ?_
    rw [hc]
    refine Bool.eq_false_iff.2 fun hb => ?_
    have hmem := hname.2 c (by rw [hc]; exact List.mem_cons_self)
    rw [Text.isMemberChar_eq_false_of_isBlank hb] at hmem
    cases hmem
  rw [memberStep, lex_skipBlanks, bind_read_of_done (skipBlanks_read _),
    Text.skipBlanks_append hw, hskip, lex_memberName,
    bind_read_of_done (memberName_append hname hr)]
  rfl

/-- An index is read with the blanks around it and its closing bracket. -/
theorem indexStep_complete (hnested : nested.Complete limit) {s w₁ w₂ : Text} {i : Index}
    (hw₁ : w₁.IsBlank) (hi : Grammar.IndexValue s i) (hw₂ : w₂.IsBlank) (hd : i.depth ≤ limit)
    (rest : Text) :
    indexStep nested (w₁ ++ (s ++ (w₂ ++ ']' :: rest))) = .done (.index i) rest := by
  have hclose : Text.skipBlanks (w₂ ++ ']' :: rest) = ']' :: rest :=
    Text.skipBlanks_blank_append_cons hw₂ (by decide)
  obtain ⟨mid, hmid, hskip⟩ := index_complete hnested hi hd
    (Text.closes_blank_append_cons (s := rest) hw₂ (.inr (.inr rfl)))
  have hhead : Text.skipBlanks (w₁ ++ (s ++ (w₂ ++ ']' :: rest))) = s ++ (w₂ ++ ']' :: rest) := by
    obtain ⟨c, v, rfl, hc⟩ := hi.exists_head
    exact Text.skipBlanks_blank_append_cons hw₁ hc
  rw [indexStep, lex_skipBlanks, bind_read_of_done (skipBlanks_read _), hhead,
    bind_read_of_done hmid, bind_read_of_done (skipBlanks_read _), hskip, hclose,
    bind_read_of_done (expect_read_self _ _ _), pure_read]

/-- All steps of the grammar are read, by induction on their list. -/
theorem steps_complete (hnested : nested.Complete limit) {t rest : Text} {xs : List Step}
    (h : Grammar.Steps t xs) (hd : Step.maxDepth xs ≤ limit) (hr : rest.EndsSteps) :
    steps nested (Text.skipBlanks (t ++ rest)) = .done xs rest.skipBlanks := by
  induction xs generalizing t with
  | nil =>
    cases h
    -- Here the second half of `EndsSteps` is used, and nowhere else.
    refine chainFrom_of_stop fun c hc => ?_
    have hstop := hr.2
    rw [List.nil_append] at hc
    obtain ⟨v, hv⟩ := List.head?_eq_some_iff.1 hc
    rw [hv, Text.startsOutside_cons, Bool.or_eq_false_iff, beq_eq_false_iff_ne,
      beq_eq_false_iff_ne] at hstop
    rw [furtherStep, if_neg hstop.1, if_neg hstop.2]
  | cons x xs ih =>
    obtain ⟨hdx, hdxs⟩ := Nat.max_le.1 hd
    cases h with
    | @cons w s t _ _ hw hx hxs =>
      rw [List.append_assoc, List.append_assoc, Text.skipBlanks_append hw]
      cases hx with
      | @member w' name hw' hname =>
        have hstep := memberStep_complete hw' hname (hxs.startsOutside_append hr.1)
        have hitem : (do let x ← memberStep; skipBlanks; return x : Reader Step)
            (w' ++ (name.toList ++ (t ++ rest))) =
              .done (.member name) (Text.skipBlanks (t ++ rest)) := by
          rw [bind_read_of_done hstep, bind_read_of_done (skipBlanks_read _), pure_read]
        rw [List.cons_append, List.append_assoc,
          Text.skipBlanks_of_outside (Text.startsOutside_cons.2 (by decide))]
        exact chainFrom_of_done rfl hitem (ih hxs hdxs)
      | @index w₁ w₂ s i hw₁ hi hw₂ =>
        have hstep := indexStep_complete hnested hw₁ hi hw₂ hdx (t ++ rest)
        have hitem : (do let x ← indexStep nested; skipBlanks; return x : Reader Step)
            (w₁ ++ (s ++ (w₂ ++ ']' :: (t ++ rest)))) =
              .done (.index i) (Text.skipBlanks (t ++ rest)) := by
          rw [bind_read_of_done hstep, bind_read_of_done (skipBlanks_read _), pure_read]
        simp only [List.cons_append, List.append_assoc, List.nil_append]
        rw [Text.skipBlanks_of_outside (Text.startsOutside_cons.2 (by decide))]
        exact chainFrom_of_done rfl hitem (ih hxs hdxs)

/-! ## Expressions -/

/-- Every expression of the grammar that keeps to the limit is read under the limit. -/
theorem expression_complete (limit : Nat) : (expression limit).Complete limit := by
  induction limit with
  | zero =>
    rintro t ⟨c, xs⟩ rest ⟨_, hd⟩ _
    exact absurd hd (Nat.not_succ_le_zero _)
  | succ limit ih =>
    rintro t e rest ⟨h, hd⟩ hr
    cases h with
    | @mk name w₁ w₂ w₃ a t args xs hname hw₁ hw₂ hargs hw₃ hxs =>
      obtain ⟨hdargs, hdxs⟩ := Nat.max_le.1 (Nat.le_of_succ_le_succ hd)
      have hcall := call_complete ih hname hw₁ hw₂ hargs hw₃ hdargs (t ++ rest)
      have hassoc : name.toList ++ (w₁ ++ '(' :: (w₂ ++ (a ++ (w₃ ++ ')' :: t)))) ++ rest =
          name.toList ++ (w₁ ++ '(' :: (w₂ ++ (a ++ (w₃ ++ ')' :: (t ++ rest))))) := by simp
      have hhead : ∀ u : Text, Text.skipBlanks (name.toList ++ u) = name.toList ++ u := by
        obtain ⟨c, v, hc, ha⟩ := hname.exists_alpha
        intro u
        rw [hc]
        exact Text.skipBlanks_of_outside (isBlank_eq_false_of_isAlpha ha)
      rw [hassoc, expression_succ, expressionOver, lex_skipBlanks,
        bind_read_of_done (skipBlanks_read _), hhead, bind_read_of_done hcall,
        bind_read_of_done (skipBlanks_read _),
        bind_read_of_done (steps_complete ih hxs hdxs hr), pure_read]

/-- Blanks in front of an expression are skipped once the limit allows it to be opened. -/
theorem expression_blank_append {limit : Nat} {w : Text} (hw : w.IsBlank) (s : Text) :
    expression (limit + 1) (w ++ s) = expression (limit + 1) s := by
  rw [expression_succ, expressionOver, lex_skipBlanks, bind_read_of_done (skipBlanks_read _),
    bind_read_of_done (skipBlanks_read _), Text.skipBlanks_append hw]

end Reader

end BracketExpr
