import BracketExpr.Cursor.Operation
import BracketExpr.Proofs.CursorReading
import BracketExpr.Proofs.DiagnosticPlace
import BracketExpr.Proofs.LexemeEnd
import BracketExpr.Proofs.Soundness

/-!
# Nested calls are seen before they are read

An expression inside another one is read only where a call can be seen ahead. Looking ahead finds a
call exactly where its name, blanks and its opening parenthesis can be read one after the other. So
a nested call fails neither at its name nor in front of its parenthesis: both kinds of faults
concern the outermost call, and they stand where nothing else has been read yet. The nesting limit,
unless it is zero, is exceeded only in front of a call that can be seen.
-/

namespace BracketExpr

/-! ## Looking ahead -/

/-- A call can be seen where a function name can be read and blanks, with an opening parenthesis
behind them. -/
theorem isCallAt_iff_functionName {s : Text} :
    isCallAt s ↔ ∃ name mid, Reader.functionName s = .done (some name) mid ∧
      mid.skipBlanks.head? = some '(' := by
  by_cases h : functionNameAt s = []
  · have hread : Reader.functionName s = .done none s := Reader.lexeme_read_of_nil h
    simp [isCallAt, h, hread]
  · have hread : Reader.functionName s =
        .done (some (String.ofList (functionNameAt s))) (s.drop (functionNameAt s).length) :=
      Reader.lexeme_read_of_ne_nil h
    simp only [isCallAt, hread, Reading.done.injEq, Option.some.injEq, Bool.and_eq_true,
      Bool.not_eq_true', List.isEmpty_eq_false_iff, beq_iff_eq]
    constructor
    · rintro ⟨-, hopen⟩
      exact ⟨_, _, ⟨rfl, rfl⟩, hopen⟩
    · rintro ⟨_, _, ⟨-, rfl⟩, hopen⟩
      exact ⟨h, hopen⟩

/-- At every cursor, looking ahead agrees with the operations that then read what has been seen. -/
theorem Cursor.perform_atCall_iff (c : Cursor) :
    (c.perform .atCall).1 = .truth true ↔
      ∃ name, (c.performAll [.functionName, .skipBlanks, .eat '(']).map Prod.fst =
        [.name (some name), .moved, .truth true] := by
  have hlook : (c.perform .atCall).1 = .truth (isCallAt c.rest) := rfl
  rw [hlook, Answer.truth.injEq, isCallAt_iff_functionName]
  obtain ⟨name?, mid, hread⟩ := Reader.exists_lexeme_read functionNameAt c.rest
  have hname : c.run Reader.functionName = (.ok name?, c.moveTo mid) := run_of_done hread
  have hskip : (c.moveTo mid).run Reader.skipBlanks =
      (.ok (), (c.moveTo mid).moveTo mid.skipBlanks) := run_of_done rfl
  have heat : (((c.moveTo mid).moveTo mid.skipBlanks).run (Reader.eat '(')).1 =
      .ok (mid.skipBlanks.head? == some '(') := by
    rw [run_of_done (Reader.eat_read _ _), rest_moveTo]
  have hanswers : (c.performAll [.functionName, .skipBlanks, .eat '(']).map Prod.fst =
      [.name name?, .moved, .truth (mid.skipBlanks.head? == some '(')] := by
    simp only [performAll, perform, answer, hname, hskip, List.map_cons, List.map_nil]
    rw [heat]
  rw [hanswers, Reader.functionName, hread]
  cases name? <;> simp [and_assoc]

/-! ## Nested expressions -/

/-- A fault of a nested expression. It concerns neither a name nor an opening parenthesis, and where
the nesting limit is exceeded a call can be seen. -/
structure Fault.IsNested (fault : Fault) : Prop where
  kind_ne_name : fault.kind ≠ .invalidFunctionName
  kind_ne_open : fault.kind ≠ .expectedOpenParen
  isCallAt_rest : fault.kind = .maxDepthExceeded → isCallAt fault.rest

/-- A fault that concerns no call counts as nested. -/
theorem Fault.isNested_of_concernsCall_eq_false {fault : Fault}
    (h : fault.kind.concernsCall = false) : fault.IsNested := by
  refine ⟨fun hkind => ?_, fun hkind => ?_, fun hkind => ?_⟩
  all_goals
    rw [hkind] at h
    cases h

namespace Reader

open Production

/-- Where a call can be seen, its name and its opening parenthesis are read without a fault. So the
faults of an expression there come from its parts, by induction on the levels that may be opened. -/
theorem expression_isNested_of_isCallAt (limit : Nat) {s : Text} (h : isCallAt s) :
    FaultsAt Fault.IsNested (expression limit) s := by
  induction limit generalizing s with
  | zero => exact .fail ⟨by simp [Fault.atStart], by simp [Fault.atStart], fun _ => h⟩
  | succ limit ih =>
    obtain ⟨name, mid, hread, hopen⟩ := isCallAt_iff_functionName.1 h
    obtain ⟨hname, hs⟩ := functionName_eq_some hread
    have hblanks : s.skipBlanks = s := by
      obtain ⟨c, t, ht, hc⟩ := hname.exists_alpha
      rw [hs, ht]
      exact Text.skipBlanks_of_outside (isBlank_eq_false_of_isAlpha hc)
    have hcallee : calleeName (m := Reader) s = .done name mid := by
      rw [calleeName, lex_functionName, bind_read_of_done hread]
      rfl
    refine expression_succ_faultsAt
      (fun _ hpart => Fault.isNested_of_concernsCall_eq_false hpart.concernsCall_eq_false)
      (fun s hs => ih hs) ?_ ?_
    · intro fault rest hfail
      rw [hblanks, hcallee] at hfail
      cases hfail
    · intro name' mid' hread' fault rest hfail
      rw [hblanks, hcallee] at hread'
      cases hread'
      obtain ⟨t, ht⟩ := List.head?_eq_some_iff.1 hopen
      rw [ht, expect_read_self] at hfail
      cases hfail

end Reader

/-! ## The outermost call -/

/-- Where a fault of the given kind stands in the text after an opening bracket, `before` being what
has been passed by then, if it concerns a call. -/
structure FaultKind.StandsAtCall (kind : FaultKind) (limit : Nat) (before after : Text) : Prop where
  /-- A function name is missing in front of anything else but blanks. -/
  ofName : kind = .invalidFunctionName → before.IsBlank
  /-- An opening parenthesis is missing behind the first function name, which has been read in
  full. -/
  ofOpen : kind = .expectedOpenParen → ∃ w₁ name w₂ : Text, before = w₁ ++ (name ++ w₂) ∧
    w₁.IsBlank ∧ name.IsLongestPrefix IsFunctionName (name ++ (w₂ ++ after)) ∧ w₂.IsBlank
  /-- The limit is exceeded where a further call starts. -/
  ofLimit : kind = .maxDepthExceeded → 1 ≤ limit → ∃ name w t : Text,
    after = name ++ (w ++ '(' :: t) ∧ IsFunctionName name ∧ w.IsBlank

/-- Of the faults of nested expressions nothing else is said than where a call can be seen. -/
theorem Fault.IsNested.standsAtCall {fault : Fault} (h : fault.IsNested) (limit : Nat)
    (before : Text) : fault.kind.StandsAtCall limit before fault.rest where
  ofName hkind := absurd hkind h.kind_ne_name
  ofOpen hkind := absurd hkind h.kind_ne_open
  ofLimit hkind _ := isCallAt_iff.1 (h.isCallAt_rest hkind)

namespace Reader

open Production

/-- The property that the faults of the outermost expression in the text `s` have. -/
def StandsAtCallIn (limit : Nat) (s : Text) (fault : Fault) : Prop :=
  ∀ before, s = before ++ fault.rest → fault.kind.StandsAtCall limit before fault.rest

/-- A fault at the name of the outermost call stands behind blanks. -/
theorem calleeName_standsAtCallIn (limit : Nat) (s : Text) :
    FaultsAt (StandsAtCallIn limit s) calleeName s.skipBlanks := by
  intro fault rest hfail before hs
  rcases calleeName_eq_failed hfail with ⟨-, rfl⟩ | ⟨-, rfl⟩
  · exact (Fault.isNested_of_concernsCall_eq_false rfl).standsAtCall limit before
  · obtain ⟨w, hw, hsplit⟩ := s.exists_blank_append
    obtain rfl : w = before := List.append_cancel_right (hsplit.symm.trans hs)
    exact ⟨fun _ => hw, nofun, nofun⟩

/-- A fault in front of the opening parenthesis of the outermost call stands behind its name. -/
theorem expectOpen_standsAtCallIn (limit : Nat) {s mid : Text} {name : String}
    (h : calleeName (m := Reader) s.skipBlanks = .done name mid) :
    FaultsAt (StandsAtCallIn limit s) (expect '(' .expectedOpenParen) mid.skipBlanks := by
  intro fault rest hfail before hs
  obtain rfl := expect_eq_failed hfail
  obtain ⟨w₁, hw₁, hbefore⟩ := s.exists_blank_append
  obtain ⟨w₂, hw₂, hmid⟩ := mid.exists_blank_append
  obtain ⟨hscan, hne, hread⟩ :=
    lexeme_eq_some (functionNameAt_isPrefix _) (calleeName_eq_done h)
  have hlongest : Text.IsLongestPrefix IsFunctionName name.toList s.skipBlanks := by
    rw [← hscan] at hne ⊢
    exact isLongestPrefix_functionNameAt hne
  rw [hread, hmid] at hlongest
  refine ⟨nofun, fun _ => ⟨w₁, name.toList, w₂, ?_, hw₁, hlongest, hw₂⟩, nofun⟩
  refine List.append_cancel_right (hs.symm.trans ?_)
  calc s = w₁ ++ s.skipBlanks := hbefore
    _ = w₁ ++ (name.toList ++ (w₂ ++ mid.skipBlanks)) := by rw [hread, ← hmid]
    _ = w₁ ++ (name.toList ++ w₂) ++ mid.skipBlanks := by simp only [List.append_assoc]

/-- An expression has the faults of its own call, and those of nested ones. -/
theorem expression_standsAtCallIn (limit : Nat) (s : Text) :
    FaultsAt (StandsAtCallIn limit s) (expression limit) s := by
  cases limit with
  | zero => exact .fail fun before _ => ⟨nofun, nofun, fun _ hlimit => absurd hlimit (by omega)⟩
  | succ limit =>
    have hinner (fault : Fault) (h : fault.IsNested) : StandsAtCallIn (limit + 1) s fault :=
      fun before _ => h.standsAtCall _ before
    refine expression_succ_faultsAt (fun fault hpart => ?_) (fun t ht => ?_)
      (calleeName_standsAtCallIn _ s) fun name mid => expectOpen_standsAtCallIn _
    · exact hinner fault (Fault.isNested_of_concernsCall_eq_false hpart.concernsCall_eq_false)
    · exact (expression_isNested_of_isCallAt limit ht).mono hinner

/-- The closing bracket adds no fault that concerns a call. -/
theorem enclosed_standsAtCallIn (limit : Nat) (s : Text) :
    FaultsAt (StandsAtCallIn limit s) (enclosed limit) s := by
  intro fault rest hfail
  rcases enclosed_eq_failed hfail with
    hexpr | ⟨e, mid, -, ⟨-, rfl⟩ | ⟨c, t, -, -, rfl⟩ | ⟨c, t, -, rfl⟩⟩
  · exact expression_standsAtCallIn limit s fault rest hexpr
  all_goals
    intro before _
    exact (Fault.isNested_of_concernsCall_eq_false rfl).standsAtCall limit before

end Reader

/-- A diagnostic that concerns a call stands at the outermost call of the input, except that the
nesting limit is exceeded in front of a nested one. -/
def Diagnostic.StandsAtCall (d : Diagnostic) (limit : Nat) (input : String) : Prop :=
  ∃ before after : Text, input.toList = '[' :: (before ++ after) ∧
    d.offset = 1 + Text.byteLength before ∧ d.kind.StandsAtCall limit before after

/-- Looking ahead for a call agrees at every cursor with reading it, and every error of
classification that concerns a call stands where one can be seen or is the outermost one. -/
theorem atCall_agrees_and_standsAtCall :
    (∀ c : Cursor, (c.perform .atCall).1 = .truth true ↔
      ∃ name, (c.performAll [.functionName, .skipBlanks, .eat '(']).map Prod.fst =
        [.name (some name), .moved, .truth true]) ∧
    ∀ (limit : Nat) (input : String) (d : Diagnostic), classify limit input = .error d →
      d.StandsAtCall limit input := by
  refine ⟨Cursor.perform_atCall_iff, fun limit input d h => ?_⟩
  obtain ⟨s, fault, rest, hinput, hread, rfl⟩ := classify_eq_error h
  have hwithin := (Reader.enclosed limit).within s
  rw [hread] at hwithin
  obtain ⟨before, rfl⟩ := hwithin.2
  refine ⟨before, fault.rest, hinput, Cursor.offset_diagnose, ?_⟩
  exact Reader.enclosed_standsAtCallIn limit _ fault rest hread before rfl

/-- A cursor in front of a call and one in front of a name with a point behind it. A missing name
behind a blank, a missing parenthesis behind a dotted name, and a call that is nested too deeply. -/
theorem atCall_agrees_and_standsAtCall_each_kind :
    (((Cursor.mk ['('] "f.x\t(1".toList).perform .atCall).1 = .truth true ∧
      ∃ name, ((Cursor.mk ['('] "f.x\t(1".toList).performAll
        [.functionName, .skipBlanks, .eat '(']).map Prod.fst =
          [.name (some name), .moved, .truth true]) ∧
    (((Cursor.mk ['('] "true.(1".toList).perform .atCall).1 = .truth false ∧
      ¬ ∃ name, ((Cursor.mk ['('] "true.(1".toList).performAll
        [.functionName, .skipBlanks, .eat '(']).map Prod.fst =
          [.name (some name), .moved, .truth true]) ∧
    (classify 1 "[ ?]" = .error ⟨.invalidFunctionName, 2, some "?"⟩ ∧
      Diagnostic.StandsAtCall ⟨.invalidFunctionName, 2, some "?"⟩ 1 "[ ?]") ∧
    (classify 1 "[\tf.x .y()]" = .error ⟨.expectedOpenParen, 6, some "."⟩ ∧
      Diagnostic.StandsAtCall ⟨.expectedOpenParen, 6, some "."⟩ 1 "[\tf.x .y()]") ∧
    classify 1 "[f('é', true ())]" = .error ⟨.maxDepthExceeded, 9, some "t"⟩ ∧
      Diagnostic.StandsAtCall ⟨.maxDepthExceeded, 9, some "t"⟩ 1 "[f('é', true ())]" := by
  have hcall : ((Cursor.mk ['('] "f.x\t(1".toList).perform .atCall).1 = .truth true := by
    decide +kernel
  have hnone : ((Cursor.mk ['('] "true.(1".toList).perform .atCall).1 = .truth false := by
    decide +kernel
  have hname : classify 1 "[ ?]" = .error ⟨.invalidFunctionName, 2, some "?"⟩ := by
    decide +kernel
  have hopen : classify 1 "[\tf.x .y()]" = .error ⟨.expectedOpenParen, 6, some "."⟩ := by
    decide +kernel
  have hlimit : classify 1 "[f('é', true ())]" = .error ⟨.maxDepthExceeded, 9, some "t"⟩ := by
    decide +kernel
  refine ⟨⟨hcall, (atCall_agrees_and_standsAtCall.1 _).1 hcall⟩, ⟨hnone, fun hread => ?_⟩,
    ⟨hname, atCall_agrees_and_standsAtCall.2 _ _ _ hname⟩,
    ⟨hopen, atCall_agrees_and_standsAtCall.2 _ _ _ hopen⟩,
    hlimit, atCall_agrees_and_standsAtCall.2 _ _ _ hlimit⟩
  have htrue := (atCall_agrees_and_standsAtCall.1 _).2 hread
  rw [hnone] at htrue
  cases htrue

end BracketExpr
