import BracketExpr.Proofs.ByteCursor
import BracketExpr.Proofs.CursorReading
import BracketExpr.Proofs.Lexeme

/-!
# Operations at the offset of a cursor

The text that a cursor stands before is the slice of its input from its byte offset on. So an
operation at the offset of a cursor slices at character boundaries only, and it has the answer of
the operation on the cursor and moves to the offset of the cursor after it.
-/

namespace BracketExpr

namespace Cursor

/-! ## Offsets -/

/-- A cursor as a byte offset. -/
def bytes (c : Cursor) : ByteCursor :=
  ⟨c.input, c.position⟩

@[simp]
theorem position_bytes (c : Cursor) : c.bytes.position = c.position := rfl

/-- A cursor can go on from behind its current character. -/
theorem moveTo_cons {s rest : Text} (h : rest <:+ s) (w : Text) (ch : Char) :
    (Cursor.mk w (ch :: s)).moveTo rest = (Cursor.mk (w ++ [ch]) s).moveTo rest := by
  obtain ⟨z, rfl⟩ := h
  rw [← List.cons_append, moveTo_append, moveTo_append, List.append_assoc, List.singleton_append]

/-- To go forward by the byte length of the text that comes next is to move the cursor behind it. -/
theorem forward_bytes {c : Cursor} {w rest : Text} (h : c.rest = w ++ rest) :
    c.bytes.forward (Text.byteLength w) = (c.moveTo rest).bytes := by
  obtain ⟨consumed, s⟩ := c
  obtain rfl : s = w ++ rest := h
  rw [moveTo_append]
  simp [bytes, ByteCursor.forward, input, position]

theorem forward_bytes_cons (w s : Text) (ch : Char) :
    (Cursor.mk w (ch :: s)).bytes.forward ch.utf8Size = (Cursor.mk (w ++ [ch]) s).bytes := by
  have h : (Cursor.mk w ([ch] ++ s)).bytes.forward (Text.byteLength [ch]) =
      ((Cursor.mk w ([ch] ++ s)).moveTo s).bytes := forward_bytes rfl
  rwa [moveTo_append] at h

/-! ## Characters -/

variable (c : Cursor)

/-- The text ahead of a cursor is a slice of its input. -/
@[simp]
theorem rest?_bytes : c.bytes.rest? = some c.rest :=
  Text.dropBytes?_byteLength c.consumed c.rest

@[simp]
theorem current?_bytes : c.bytes.current? = some c.current := by
  rw [ByteCursor.current?, rest?_bytes, Option.map_some, current]

theorem peek?_bytes (k : Nat) : c.bytes.peek? k = some (c.peek k) := by
  rw [ByteCursor.peek?, rest?_bytes, Option.map_some, peek]

theorem atEnd_bytes : c.bytes.atEnd = c.atEnd := by
  have hlength : Text.byteLength c.input = c.position + Text.byteLength c.rest :=
    Text.byteLength_append c.consumed c.rest
  rw [Bool.eq_iff_iff, atEnd, List.isEmpty_iff, ← Text.byteLength_eq_zero]
  simp only [ByteCursor.atEnd, bytes, hlength, decide_eq_true_eq]
  omega

/-- Going past the current character by its size keeps to boundaries. -/
theorem advance?_bytes : c.bytes.advance? = some (c.moveTo c.rest.tail).bytes := by
  obtain ⟨w, s⟩ := c
  cases s with
  | nil => simp [ByteCursor.advance?, current, moveTo]
  | cons ch s => simp [ByteCursor.advance?, current, forward_bytes_cons, moveTo]

/-- A loop over characters of a class stops where the text without them starts. -/
theorem advanceWhile?_bytes (p : Char → Bool) :
    c.bytes.advanceWhile? p = some (c.moveTo (c.rest.dropWhile p)).bytes := by
  obtain ⟨w, s⟩ := c
  induction s generalizing w with
  | nil =>
    rw [ByteCursor.advanceWhile?_of_end (current?_bytes _)]
    simp [moveTo]
  | cons ch s ih =>
    rw [ByteCursor.advanceWhile?_of_char (current?_bytes _)]
    by_cases hp : p ch
    · rw [if_pos hp, forward_bytes_cons, ih, List.dropWhile_cons_of_pos hp,
        moveTo_cons (List.dropWhile_suffix p)]
    · rw [if_neg hp, List.dropWhile_cons_of_neg hp, moveTo_rest]

/-- A character is passed at the offset exactly if the text ahead starts with it. -/
theorem eat?_bytes (ch : Char) :
    c.bytes.eat? ch = some (c.rest.head? == some ch,
      (c.moveTo (if c.rest.head? = some ch then c.rest.tail else c.rest)).bytes) := by
  by_cases h : c.rest.head? = some ch
  · simp [ByteCursor.eat?, current, h, advance?_bytes]
  · simp [ByteCursor.eat?, current, h]

theorem diagnoseAt?_bytes (kind : FaultKind) (offset : Nat) :
    c.bytes.diagnoseAt? kind offset = c.diagnoseAt? kind offset := by
  rw [Cursor.diagnoseAt?, Option.map_eq_bind]
  rfl

/-- A diagnostic at the offset shows the character ahead of the cursor. -/
theorem diagnoseAt?_position_bytes (kind : FaultKind) :
    c.bytes.diagnoseAt? kind c.position = some (c.diagnose (.atStart kind c.rest)) := by
  have hrest : c.bytes.input.dropBytes? c.position = some c.rest := rest?_bytes c
  rw [ByteCursor.diagnoseAt?, hrest, diagnose_of_rest_eq rfl]
  simp [Fault.atStart, Function.comp_def]

/-! ## Lexemes -/

variable {c}

/-- A lexeme is a prefix of the text ahead, so its byte length leads to a boundary. -/
theorem lexeme?_bytes {scan : Text → Text} (hscan : ∀ s, scan s <+: s) {name? : Option String}
    {rest : Text} (h : Reader.lexeme scan c.rest = .done name? rest) :
    c.bytes.lexeme? scan = some (name?, (c.moveTo rest).bytes) := by
  by_cases hnil : scan c.rest = []
  · rw [Reader.lexeme_read_of_nil hnil] at h
    cases h
    simp [ByteCursor.lexeme?, hnil]
  · rw [Reader.lexeme_read_of_ne_nil hnil] at h
    cases h
    have hsplit := List.prefix_iff_eq_append.1 (hscan c.rest)
    have hslice : c.rest.takeBytes? (Text.byteLength (scan c.rest)) = some (scan c.rest) := by
      conv => lhs; arg 2; rw [← hsplit]
      exact Text.takeBytes?_byteLength _ _
    simp [ByteCursor.lexeme?, hnil, hslice, forward_bytes hsplit.symm]

/-- Looking ahead for a call slices behind the function name, which is a boundary. -/
theorem atCall?_bytes : c.bytes.atCall? = some (isCallAt c.rest) := by
  by_cases hnil : functionNameAt c.rest = []
  · simp [ByteCursor.atCall?, isCallAt, hnil]
  · have hslice : c.rest.dropBytes? (Text.byteLength (functionNameAt c.rest)) =
        some (c.rest.drop (functionNameAt c.rest).length) :=
      Text.dropBytes?_eq_some.2
        ⟨_, (List.prefix_iff_eq_append.1 (functionNameAt_isPrefix c.rest)).symm, rfl⟩
    simp [ByteCursor.atCall?, isCallAt, hnil, hslice]

/-- A number is passed in two parts: its sign, if there is one, and its digits. -/
theorem exists_sign_digits (w s : Text) :
    ∃ (sign digits behind : Text) (signed : Bool), s = sign ++ (digits ++ behind) ∧
      Numeral.scan s = sign ++ digits ∧ Numeral.value? sign = none ∧
      (Cursor.mk w s).bytes.eat? '-' =
        some (signed, (Cursor.mk (w ++ sign) (digits ++ behind)).bytes) ∧
      (Cursor.mk (w ++ sign) (digits ++ behind)).bytes.advanceWhile? Char.isDigit =
        some (Cursor.mk (w ++ (sign ++ digits)) behind).bytes := by
  have hsplit (t : Text) : t.takeWhile Char.isDigit ++ t.dropWhile Char.isDigit = t :=
    List.takeWhile_append_dropWhile
  have hloop (w t : Text) : (Cursor.mk w t).bytes.advanceWhile? Char.isDigit =
      some (Cursor.mk (w ++ t.takeWhile Char.isDigit) (t.dropWhile Char.isDigit)).bytes := by
    have hmove := moveTo_append w (t.takeWhile Char.isDigit) (t.dropWhile Char.isDigit)
    rw [hsplit] at hmove
    rw [advanceWhile?_bytes, hmove]
  by_cases h : s.head? = some '-'
  · obtain ⟨t, rfl⟩ := List.head?_eq_some_iff.1 h
    refine ⟨['-'], t.takeWhile Char.isDigit, t.dropWhile Char.isDigit, true, ?_, rfl, rfl, ?_, ?_⟩
    · rw [hsplit, List.singleton_append]
    · rw [hsplit, eat?_bytes]
      simp [moveTo]
    · rw [hsplit, hloop, List.append_assoc]
  · have hscan : Numeral.scan s = s.takeWhile Char.isDigit := by
      rw [Numeral.scan.eq_2]
      rintro t rfl
      exact h rfl
    refine ⟨[], s.takeWhile Char.isDigit, s.dropWhile Char.isDigit, false, ?_, hscan, rfl, ?_, ?_⟩
    · rw [hsplit, List.nil_append]
    · rw [hsplit, eat?_bytes]
      simp [h, moveTo]
    · rw [hsplit, hloop, List.append_nil, List.nil_append]

/-- The slice between the two offsets is the text that the scan for a number takes. -/
theorem number?_bytes :
    c.bytes.number? = some ((c.run Reader.number).1, (c.run Reader.number).2.bytes) := by
  obtain ⟨w, s⟩ := c
  obtain ⟨sign, digits, behind, signed, rfl, hscan, hsign, heat, hloop⟩ := exists_sign_digits w s
  have hslice : (Cursor.mk w (sign ++ (digits ++ behind))).bytes.input.slice?
      (Cursor.mk w (sign ++ (digits ++ behind))).bytes.position
      (Cursor.mk (w ++ (sign ++ digits)) behind).bytes.position = some (sign ++ digits) :=
    Text.slice?_append w behind (by simp [bytes, input]) rfl rfl
  have hstays : (Cursor.mk (w ++ (sign ++ digits)) behind).bytes.position =
      (Cursor.mk (w ++ sign) (digits ++ behind)).bytes.position ↔ digits = [] := by
    rw [← List.append_assoc]
    simp [position, Text.byteLength_eq_zero]
  have hmove : (Cursor.mk w (sign ++ (digits ++ behind))).moveTo behind =
      ⟨w ++ (sign ++ digits), behind⟩ := by
    rw [← List.append_assoc, moveTo_append]
  have hdrop : (sign ++ (digits ++ behind)).drop (sign ++ digits).length = behind := by
    rw [← List.append_assoc, List.drop_left]
  cases hvalue : (Numeral.value? (sign ++ digits)).bind Numeral.int64? with
  | none =>
    have hread : Reader.number (sign ++ (digits ++ behind)) =
        .failed ⟨.invalidNumber, sign ++ (digits ++ behind), some (sign ++ digits)⟩ behind := by
      simp only [Reader.number, hscan, hvalue, hdrop]
    rw [run_of_failed hread, diagnose_of_rest_eq rfl, hmove]
    simp only [ByteCursor.number?, heat, hloop, hslice, hvalue, Option.bind_eq_bind,
      Option.bind_some, Option.pure_def, ite_self]
    rfl
  | some n =>
    have hread : Reader.number (sign ++ (digits ++ behind)) = .done n behind := by
      simp only [Reader.number, hscan, hvalue, hdrop]
    -- A sign alone has no value, so the offset has moved behind it.
    have hne : digits ≠ [] := by
      rintro rfl
      rw [List.append_nil, hsign] at hvalue
      cases hvalue
    rw [run_of_done hread, hmove]
    simp only [ByteCursor.number?, heat, hloop, hslice, hvalue, hstays, hne, Option.bind_eq_bind,
      Option.bind_some, Option.pure_def, if_false]

/-- A keyword is passed by its byte length, and only if the word ends there. -/
theorem boolean?_bytes {b? : Option Bool} {rest : Text}
    (h : Reader.boolean c.rest = .done b? rest) :
    c.bytes.boolean? = some (b?, (c.moveTo rest).bytes) := by
  cases hkey : ByteCursor.keywordAt? c.rest with
  | none =>
    rw [ByteCursor.boolean_read_of_keywordAt?_eq_none hkey] at h
    cases h
    simp [ByteCursor.boolean?, hkey]
  | some value =>
    obtain ⟨behind, hrest⟩ := ByteCursor.exists_append_of_keywordAt? hkey
    have hslice : c.rest.dropBytes? (Text.byteLength (booleanText value)) = some behind :=
      Text.dropBytes?_eq_some.2 ⟨_, hrest, rfl⟩
    rw [hrest, Reader.boolean_read_append, ← hrest] at h
    by_cases hword : behind.head?.any isWordChar
    · rw [if_pos hword] at h
      cases h
      simp [ByteCursor.boolean?, hkey, hslice, hword]
    · rw [if_neg hword] at h
      cases h
      simp [ByteCursor.boolean?, hkey, hslice, hword, forward_bytes hrest]

/-- What is left behind a quoted text, which is nothing if it is not closed. -/
theorem elim_body_suffix (s : Text) : (Quoted.body s).elim [] Prod.snd <:+ s := by
  cases h : Quoted.body s with
  | none => exact List.nil_suffix
  | some p => exact Quoted.suffix_of_body h

/-- The loop over a quoted text takes what `Quoted.body` takes, and it goes to the end of the input
if the text is not closed. -/
theorem quotedBody?_bytes (w s : Text) :
    (Cursor.mk w s).bytes.quotedBody? = some ((Quoted.body s).map Prod.fst,
      ((Cursor.mk w s).moveTo ((Quoted.body s).elim [] Prod.snd)).bytes) := by
  fun_induction Quoted.body s generalizing w with
  | case1 =>
    rw [ByteCursor.quotedBody?_of_end (current?_bytes _)]
    simp [moveTo]
  | case2 s ih =>
    have hnext : ((Cursor.mk w ('\x27' :: '\x27' :: s)).bytes.forward
        (Char.utf8Size '\x27')).current? = some (some '\x27') := by
      rw [forward_bytes_cons, current?_bytes]
      rfl
    have hsuffix := elim_body_suffix s
    rw [ByteCursor.quotedBody?_of_doubled (current?_bytes _) rfl hnext, forward_bytes_cons,
      forward_bytes_cons, ih, ← moveTo_cons hsuffix,
      ← moveTo_cons (hsuffix.trans (List.suffix_cons _ s))]
    cases Quoted.body s <;> rfl
  | case3 s hs =>
    have hnext : ((Cursor.mk w ('\x27' :: s)).bytes.forward
        (Char.utf8Size '\x27')).current? = some s.head? := by
      rw [forward_bytes_cons, current?_bytes]
      rfl
    have hne : s.head? ≠ some '\x27' := by
      intro hq
      obtain ⟨t, rfl⟩ := List.head?_eq_some_iff.1 hq
      exact hs t rfl rfl
    rw [ByteCursor.quotedBody?_of_closed (current?_bytes _) rfl hnext hne, forward_bytes_cons]
    simp [moveTo]
  | case4 c s hs hc ih =>
    rw [ByteCursor.quotedBody?_of_ne (current?_bytes _) hc, forward_bytes_cons, ih,
      ← moveTo_cons (elim_body_suffix s)]
    cases Quoted.body s <;> rfl

/-- A quoted text is read from the same slices, also where it is not closed. -/
theorem quoted?_bytes :
    c.bytes.quoted? = some ((c.run Reader.quoted).1, (c.run Reader.quoted).2.bytes) := by
  obtain ⟨w, s⟩ := c
  by_cases hopen : s.head? = some '\x27'
  · obtain ⟨t, rfl⟩ := List.head?_eq_some_iff.1 hopen
    have heat : (Cursor.mk w ('\x27' :: t)).bytes.eat? '\x27' =
        some (true, (Cursor.mk (w ++ ['\x27']) t).bytes) := by
      rw [eat?_bytes]
      simp [moveTo]
    cases hbody : Quoted.body t with
    | none =>
      have hread : Reader.quoted ('\x27' :: t) =
          .failed ⟨.unterminatedString, '\x27' :: t, some ('\x27' :: t)⟩ [] := by
        simp only [Reader.quoted, hbody]
      rw [run_of_failed hread, diagnose_of_rest_eq rfl, moveTo_cons List.nil_suffix]
      simp [ByteCursor.quoted?, heat, quotedBody?_bytes, hbody]
    | some p =>
      have hread : Reader.quoted ('\x27' :: t) = .done (String.ofList p.1) p.2 := by
        simp only [Reader.quoted, hbody]
      rw [run_of_done hread, moveTo_cons (Quoted.suffix_of_body hbody)]
      simp [ByteCursor.quoted?, heat, quotedBody?_bytes, hbody]
  · have heat : (Cursor.mk w s).bytes.eat? '\x27' = some (false, (Cursor.mk w s).bytes) := by
      rw [eat?_bytes]
      simp [hopen, moveTo]
    have hread := Reader.quoted_of_head?_ne hopen
    have hdiagnose := diagnoseAt?_position_bytes ⟨w, s⟩ .invalidArgument
    rw [run_of_failed hread, moveTo_rest]
    simp [ByteCursor.quoted?, heat, hdiagnose]

/-! ## Operations -/

/-- If the operation names a byte offset, then it names a character boundary of the input. -/
def Operation.NamesBoundary (s : Text) : Operation → Prop
  | .diagnoseAt _ offset => s.IsBoundary offset
  | .position | .atEnd | .current | .peek _ | .advance | .skipBlanks | .eat _ | .diagnose _
  | .functionName | .memberName | .atCall | .number | .boolean | .quoted => True

instance (s : Text) : DecidablePred (Operation.NamesBoundary s)
  | .diagnoseAt _ offset => inferInstanceAs (Decidable (s.IsBoundary offset))
  | .position | .atEnd | .current | .peek _ | .advance | .skipBlanks | .eat _ | .diagnose _
  | .functionName | .memberName | .atCall | .number | .boolean | .quoted => isTrue trivial

theorem exists_diagnoseAt? (kind : FaultKind) {offset : Nat} (h : c.input.IsBoundary offset) :
    ∃ d, c.diagnoseAt? kind offset = some d := by
  obtain ⟨rest, hrest⟩ := Option.isSome_iff_exists.1 (Text.isSome_dropBytes?.2 h)
  exact ⟨_, by rw [diagnoseAt?, hrest, Option.map_some]⟩

/-- The answer of an operation that runs a reader, in one form for success and failure. -/
theorem answer_eq {α : Type} (c : Cursor) (r : Reader α) (present : α → Answer) :
    c.answer r present = (.ofResult present (c.run r).1, (c.run r).2) := by
  rw [answer]
  cases c.run r with
  | mk result c' => cases result <;> rfl

/-- An operation at the offset of a cursor slices at boundaries only, and it does what the operation
on the cursor does. -/
theorem perform?_bytes {op : Operation} (h : op.NamesBoundary c.input) :
    c.bytes.perform? op = some ((c.perform op).1, (c.perform op).2.bytes) := by
  cases op with
  | position => rfl
  | atEnd => rw [ByteCursor.perform?, atEnd_bytes, perform]
  | current => rw [ByteCursor.perform?, current?_bytes, perform, Option.map_some]
  | peek k => rw [ByteCursor.perform?, peek?_bytes, perform, Option.map_some]
  | advance =>
    rw [ByteCursor.perform?, advance?_bytes, perform, answer_eq, Option.map_some]
    rfl
  | skipBlanks =>
    rw [ByteCursor.perform?, advanceWhile?_bytes, perform, answer_eq, Option.map_some]
    rfl
  | eat ch =>
    rw [ByteCursor.perform?, eat?_bytes, perform, answer_eq, run_of_done (Reader.eat_read _ _)]
    rfl
  | diagnose kind =>
    rw [ByteCursor.perform?, position_bytes, diagnoseAt?_position_bytes, perform, Option.map_some]
  | diagnoseAt kind offset =>
    obtain ⟨d, hd⟩ := exists_diagnoseAt? kind h
    simp only [ByteCursor.perform?, diagnoseAt?_bytes, perform, hd, Option.map_some]
  | functionName =>
    obtain ⟨name?, rest, hread⟩ := Reader.exists_lexeme_read functionNameAt c.rest
    rw [ByteCursor.perform?, lexeme?_bytes functionNameAt_isPrefix hread, perform, answer_eq,
      Reader.functionName, run_of_done hread]
    rfl
  | memberName =>
    obtain ⟨name?, rest, hread⟩ := Reader.exists_lexeme_read memberNameAt c.rest
    have hprefix (s : Text) : memberNameAt s <+: s := List.takeWhile_prefix isMemberChar
    rw [ByteCursor.perform?, lexeme?_bytes hprefix hread, perform, answer_eq,
      Reader.memberName, run_of_done hread]
    rfl
  | atCall =>
    rw [ByteCursor.perform?, atCall?_bytes, perform, answer_eq, run_of_done (Reader.atCall_read _),
      moveTo_rest]
    rfl
  | number => rw [ByteCursor.perform?, number?_bytes, perform, answer_eq, Option.map_some]
  | boolean =>
    obtain ⟨b?, rest, hread⟩ := Reader.exists_boolean_read c.rest
    rw [ByteCursor.perform?, boolean?_bytes hread, perform, answer_eq, run_of_done hread]
    rfl
  | quoted => rw [ByteCursor.perform?, quoted?_bytes, perform, answer_eq, Option.map_some]

end Cursor

end BracketExpr
