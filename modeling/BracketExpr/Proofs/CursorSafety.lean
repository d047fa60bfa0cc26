import BracketExpr.Proofs.ByteCursorAgreement
import BracketExpr.Proofs.Session

/-!
# Runs of operations at a cursor

Whatever operations have been performed in an input, readings that failed among them, the cursor
stands at a character boundary, and it has never gone back. Operations that only look leave it where
it is, and so do readings that find nothing. Kept as a byte offset of the input, the cursor goes
through the same run without a slice off a boundary.
-/

namespace BracketExpr

namespace Cursor

/-! ## Single operations -/

/-- The operations that only look. -/
def Operation.observes : Operation → Bool
  | .position | .atEnd | .current | .peek _ | .diagnose _ | .diagnoseAt _ _ | .atCall => true
  | .advance | .skipBlanks | .eat _ | .functionName | .memberName | .number | .boolean
  | .quoted => false

/-- The answer says that what was asked for is not there. -/
def Answer.isMiss : Answer → Bool
  | .truth b => !b
  | .name none | .boolean none => true
  | .moved | .offset _ | .character _ | .name (some _) | .boolean (some _) | .number _ | .text _
  | .diagnostic _ | .noBoundary => false

variable {c : Cursor} {op : Operation} {input : Text}

/-- Operations that only look leave the cursor where it is. -/
theorem perform_of_observes (h : op.observes) : (c.perform op).2 = c := by
  cases op with
  | position | atEnd | current | peek | diagnose => rfl
  | diagnoseAt kind offset =>
    rw [perform]
    split <;> rfl
  | atCall => rw [perform, answer_eq, run_of_done (Reader.atCall_read _), moveTo_rest]
  | advance | skipBlanks | eat | functionName | memberName | number | boolean | quoted => cases h

/-- A name that is missed is not taken. -/
theorem answer_lexeme_of_isMiss {scan : Text → Text}
    (h : (c.answer (Reader.lexeme scan) .name).1.isMiss) :
    (c.answer (Reader.lexeme scan) .name).2 = c := by
  obtain ⟨name?, rest, hread⟩ := Reader.exists_lexeme_read scan c.rest
  rw [answer_eq, run_of_done hread] at h ⊢
  cases name? with
  | none =>
    obtain rfl := Reader.lexeme_eq_none hread
    exact moveTo_rest c
  | some name => cases h

/-- A miss leaves the cursor where it is. -/
theorem perform_of_isMiss (h : (c.perform op).1.isMiss) : (c.perform op).2 = c := by
  cases op with
  | position | atEnd | current | peek | diagnose | diagnoseAt | atCall =>
    exact perform_of_observes rfl
  | advance => cases h
  | skipBlanks => cases h
  | eat ch =>
    rw [perform, answer_eq, run_of_done (Reader.eat_read _ _)] at h ⊢
    have hne : c.rest.head? ≠ some ch := by simpa [Answer.ofResult, Answer.isMiss] using h
    rw [if_neg hne, moveTo_rest]
  | functionName => exact answer_lexeme_of_isMiss h
  | memberName => exact answer_lexeme_of_isMiss h
  | boolean =>
    obtain ⟨b?, rest, hread⟩ := Reader.exists_boolean_read c.rest
    rw [perform, answer_eq, run_of_done hread] at h ⊢
    cases b? with
    | none =>
      obtain rfl := Reader.boolean_eq_none hread
      exact moveTo_rest c
    | some b => cases h
  | number =>
    rw [perform, answer_eq] at h
    cases hresult : (c.run Reader.number).1 <;> rw [hresult] at h <;> cases h
  | quoted =>
    rw [perform, answer_eq] at h
    cases hresult : (c.run Reader.quoted).1 <;> rw [hresult] at h <;> cases h

/-- Operations stay in the input and go forward. -/
theorem perform_moves (c : Cursor) (op : Operation) :
    (c.perform op).2.input = c.input ∧ (c.perform op).2.rest <:+ c.rest := by
  have hrun {α : Type} (r : Reader α) (present : α → Answer) :
      (c.answer r present).2.input = c.input ∧ (c.answer r present).2.rest <:+ c.rest := by
    rw [answer_eq, input_run, rest_run]
    exact ⟨rfl, (r.within c.rest).rest_suffix⟩
  cases op with
  | position | atEnd | current | peek | diagnose => exact ⟨rfl, List.suffix_rfl⟩
  | diagnoseAt => rw [perform_of_observes rfl]; exact ⟨rfl, List.suffix_rfl⟩
  | advance | skipBlanks | eat | functionName | memberName | atCall | number | boolean | quoted =>
    exact hrun _ _

/-! ## Runs -/

/-- The cursor after the last operation of a run. -/
def after (c : Cursor) (ops : List Operation) : Cursor :=
  (c.performAll ops).getLast?.elim c Prod.snd

/-- A run goes on from the cursor after its first operation. -/
theorem after_cons (c : Cursor) (op : Operation) (ops : List Operation) :
    c.after (op :: ops) = (c.perform op).2.after ops := by
  rw [after, after, performAll, List.getLast?_cons]
  cases ((c.perform op).2.performAll ops).getLast? <;> rfl

/-- A run stays in the input and goes forward, since every operation does. -/
theorem after_moves (c : Cursor) (ops : List Operation) :
    (c.after ops).input = c.input ∧ (c.after ops).rest <:+ c.rest := by
  induction ops generalizing c with
  | nil => exact ⟨rfl, List.suffix_rfl⟩
  | cons op ops ih =>
    obtain ⟨hinput, hrest⟩ := c.perform_moves op
    obtain ⟨hinputs, hrests⟩ := ih (c.perform op).2
    rw [after_cons]
    exact ⟨hinputs.trans hinput, hrests.trans hrest⟩

/-- Single steps take the characters away one by one. -/
theorem rest_after_advance (c : Cursor) (k : Nat) :
    (c.after (List.replicate k .advance)).rest = c.rest.drop k := by
  induction k generalizing c with
  | zero => rfl
  | succ k ih =>
    have hstep : (c.perform .advance).2.rest = c.rest.tail := rfl
    rw [List.replicate_succ, after_cons, ih, hstep, List.drop_tail]

/-- At the byte offset of a cursor, a run goes as it does at the cursor. -/
theorem performAll?_bytes {ops : List Operation} (h : ∀ op ∈ ops, op.NamesBoundary c.input) :
    c.bytes.performAll? ops =
      some ((c.performAll ops).map fun step => (step.1, step.2.bytes)) := by
  induction ops generalizing c with
  | nil => rfl
  | cons op ops ih =>
    obtain ⟨hop, hops⟩ := List.forall_mem_cons.1 h
    rw [← (c.perform_moves op).1] at hops
    rw [ByteCursor.performAll?, perform?_bytes hop, Option.bind_eq_bind, Option.bind_some, ih hops]
    rfl

/-! ## Safety -/

/-- What holds of a cursor of an input wherever operations have left it. -/
structure Safe (input : Text) (c : Cursor) : Prop where
  isBoundary : input.IsBoundary c.position
  position_le : c.position ≤ Text.byteLength input
  position_le_after : ∀ more, c.position ≤ (c.after more).position
  stays_of_observes : ∀ op : Operation, op.observes → (c.perform op).2 = c
  stays_of_isMiss : ∀ op, (c.perform op).1.isMiss → (c.perform op).2 = c
  atEnd_iff : c.atEnd ↔ c.current = none
  /-- The character that many characters ahead is the current one after so many steps. -/
  peek_eq : ∀ k, c.peek k = (c.after (List.replicate k .advance)).current

/-- A cursor needs nothing but its input to be safe. -/
theorem safe_input (c : Cursor) : c.Safe c.input where
  isBoundary := Text.isBoundary_byteLength c.consumed c.rest
  position_le := c.position_le_byteLength
  position_le_after more := position_le_of_suffix (c.after_moves more).1 (c.after_moves more).2
  stays_of_observes _ := perform_of_observes
  stays_of_isMiss _ := perform_of_isMiss
  atEnd_iff := by rw [atEnd, current, List.isEmpty_iff, List.head?_eq_none_iff]
  peek_eq k := by rw [current, rest_after_advance, List.head?_drop, peek]

/-- Every run of operations is safe. Wherever it leaves the cursor, the cursor is safe; and the run
at byte offsets, which would have no result if one of its slices were off a boundary, has the same
answers and the same offsets. -/
theorem performAll_safe {input : Text} {ops : List Operation}
    (h : ∀ op ∈ ops, op.NamesBoundary input) :
    ((start input).after ops).Safe input ∧
      (ByteCursor.start input).performAll? ops =
        some (((start input).performAll ops).map fun step => (step.1, step.2.bytes)) := by
  have hsafe := ((start input).after ops).safe_input
  rw [((start input).after_moves ops).1] at hsafe
  exact ⟨hsafe, performAll?_bytes (c := start input) h⟩

/-- A run over characters of two bytes, with a sign that no digits follow and an open quote. -/
theorem performAll_safe_two_bytes :
    (∀ op ∈ [.advance, .number, .functionName, .diagnoseAt .invalidArgument 4, .quoted],
      Operation.NamesBoundary "é-'é".toList op) ∧
    (Cursor.mk "é-'é".toList []).Safe "é-'é".toList ∧
    (ByteCursor.start "é-'é".toList).performAll?
        [.advance, .number, .functionName, .diagnoseAt .invalidArgument 4, .quoted] =
      some [(.moved, ⟨"é-'é".toList, 2⟩),
        (.diagnostic ⟨.invalidNumber, 2, some "-"⟩, ⟨"é-'é".toList, 3⟩),
        (.name none, ⟨"é-'é".toList, 3⟩),
        (.diagnostic ⟨.invalidArgument, 4, some "é"⟩, ⟨"é-'é".toList, 3⟩),
        (.diagnostic ⟨.unterminatedString, 3, some "'é"⟩, ⟨"é-'é".toList, 6⟩)] := by
  have hboundary : ∀ op ∈ [.advance, .number, .functionName, .diagnoseAt .invalidArgument 4,
      .quoted], Operation.NamesBoundary "é-'é".toList op := by decide +kernel
  obtain ⟨hsafe, hrun⟩ := performAll_safe hboundary
  refine ⟨hboundary, ?_, hrun.trans (by decide +kernel)⟩
  have hafter : (start "é-'é".toList).after [.advance, .number, .functionName,
      .diagnoseAt .invalidArgument 4, .quoted] = ⟨"é-'é".toList, []⟩ := by decide +kernel
  rwa [hafter] at hsafe

end Cursor

end BracketExpr
