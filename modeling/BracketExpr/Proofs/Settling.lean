import BracketExpr.Proofs.LexemeEnd
import BracketExpr.Proofs.NestedReading
import BracketExpr.Proofs.Recognition

/-!
# Texts that go on

A reader that has come to the end of its text waits for more of it, or what follows the text makes
no difference to what it does. Which of the two holds is decided for each production from its
parts. Where a production waits, it does so after a value, which more text may change, or with a
fault that more text may mend; some faults cannot be mended, and with those no reader waits.
-/

namespace BracketExpr

variable {α β : Type}

/-! ## Readings of a text that goes on -/

/-- The faults that no further text can mend. -/
def FaultKind.isFinal : FaultKind → Bool
  | invalidFunctionName | maxDepthExceeded | trailingCharacters => true
  | expectedOpenParen | expectedCloseParen | invalidArgument | invalidNumber | unterminatedString
  | invalidMemberName | unterminatedIndex | invalidIndexValue | unexpectedEndOfInput => false

namespace Text

/-- Nothing but blanks is left. -/
def Ended (s : Text) : Prop :=
  s.skipBlanks = []

/-- How a word in front of the text is to be read is open: nothing but blanks is left, which an
opening parenthesis may follow, or a point comes first, which may belong to the word. -/
def Undecided (s : Text) : Prop :=
  s.Ended ∨ s.head? = some '.'

theorem ended_nil : Ended [] := rfl

theorem ne_nil_of_not_ended {s : Text} (h : ¬ s.Ended) : s ≠ [] := by
  rintro rfl
  exact h ended_nil

theorem Ended.undecided {s : Text} (h : s.Ended) : s.Undecided :=
  .inl h

theorem Undecided.skipBlanks {s : Text} (h : s.Undecided) : s.skipBlanks.Undecided := by
  rcases h with h | h
  · rw [h]
    exact .inl ended_nil
  · obtain ⟨t, rfl⟩ := List.head?_eq_some_iff.1 h
    exact .inr rfl

theorem Ended.head?_ne {s : Text} (h : s.Ended) {c : Char} (hc : isBlank c = false) :
    s.head? ≠ some c := by
  intro hhead
  obtain ⟨t, rfl⟩ := List.head?_eq_some_iff.1 hhead
  rw [Ended, skipBlanks_of_outside (startsOutside_cons.2 hc)] at h
  cases h

theorem Undecided.head?_ne {s : Text} (h : s.Undecided) {c : Char} (hblank : isBlank c = false)
    (hpoint : c ≠ '.') : s.head? ≠ some c := by
  rcases h with h | h
  · exact h.head?_ne hblank
  · rw [h]
    exact fun hc => hpoint (Option.some.inj hc).symm

/-- Where it is decided how a word is to be read, no name goes on. -/
theorem startsOutside_append_of_decided {s : Text} (h : ¬ s.Undecided)
    (hword : s.StartsOutside isWordChar) (t : Text) : StartsOutside isNameChar (s ++ t) := by
  cases s with
  | nil => exact absurd (Ended.undecided ended_nil) h
  | cons c s =>
    have hc : c ≠ '.' := by
      rintro rfl
      exact h (.inr rfl)
    rw [startsOutside_cons] at hword
    simp [isNameChar, hword, hc]

end Text

namespace Reading

/-- The reading waits for more text: it has come to a text with `K`, or to a fault that further
text may mend. -/
def Awaits (K : Text → Prop) : Reading α → Prop
  | done _ rest => K rest
  | failed fault _ => fault.kind.isFinal = false

/-- The second reading repeats the first on a text that goes on with `t`. -/
def RepeatedOn (t : Text) : Reading α → Reading α → Prop
  | done a rest, r => r = done a (rest ++ t)
  | failed fault _, r => ∃ found rest, r = failed ⟨fault.kind, fault.rest ++ t, found⟩ rest

end Reading

namespace Reader

open Production

/-- A reader that waits for text keeps waiting when the next one waits wherever it stands. -/
theorem awaits_bind {K K' : Text → Prop} {r : Reader α} {f : α → Reader β} {s : Text}
    (h : (r s).Awaits K) (hf : ∀ a rest, K rest → (f a rest).Awaits K') :
    ((r >>= f) s).Awaits K' := by
  cases hr : r s with
  | done a rest =>
    rw [hr] at h
    rw [bind_read_of_done hr]
    exact hf a rest h
  | failed fault rest =>
    rw [hr] at h
    rw [bind_read_of_failed hr]
    exact h

theorem awaits_bind_pure {K : Text → Prop} {r : Reader α} {g : α → β} {s : Text}
    (h : (r s).Awaits K) : ((r >>= fun a => pure (g a)) s).Awaits K :=
  awaits_bind h fun _ _ hrest => hrest

/-- From the text `s` the reader waits for more text, or what follows makes no difference to it. -/
def Settles (K : Text → Prop) (r : Reader α) (s : Text) : Prop :=
  (r s).Awaits K ∨ ∀ t, (r s).RepeatedOn t (r (s ++ t))

namespace Settles

variable {K K' : Text → Prop} {s : Text}

theorem pure (a : α) : Settles K (Pure.pure a : Reader α) s :=
  .inr fun _ => rfl

theorem fail (kind : FaultKind) : Settles K (Reader.fail kind : Reader α) s :=
  .inr fun t => ⟨(s ++ t).head?.map fun c => [c], s ++ t, rfl⟩

/-- A reader that is done settles if what follows makes no difference unless it has come to a text
with `K`. -/
theorem of_done {r : Reader α} {a : α} {m : Text} (h : r s = .done a m)
    (hm : ¬ K m → ∀ t, r (s ++ t) = .done a (m ++ t)) : Settles K r s := by
  by_cases hK : K m
  · left
    rw [h]
    exact hK
  · right
    intro t
    rw [h]
    exact hm hK t

/-- A fault that further text may mend is a way of waiting for that text. -/
theorem of_failed {r : Reader α} {fault : Fault} {rest : Text} (h : r s = .failed fault rest)
    (hkind : fault.kind.isFinal = false) : Settles K r s := by
  left
  rw [h]
  exact hkind

theorem of_atStart {r : Reader α} (kind : FaultKind) (hkind : kind.isFinal = false)
    (h : r s = .failed (.atStart kind s) s) : Settles K r s :=
  of_failed h hkind

theorem congr {r r' : Reader α} {s' : Text} (h : Settles K r' s')
    (heq : ∀ t, r (s ++ t) = r' (s' ++ t)) : Settles K r s := by
  have hs := heq []
  rw [List.append_nil, List.append_nil] at hs
  rcases h with h | h
  · left
    rwa [hs]
  · right
    intro t
    rw [hs, heq]
    exact h t

theorem mono {r : Reader α} (h : Settles K r s) (hK : ∀ rest, K rest → K' rest) :
    Settles K' r s := by
  rcases h with h | h
  · left
    cases hr : r s with
    | done a rest =>
      rw [hr] at h
      exact hK rest h
    | failed fault rest =>
      rw [hr] at h
      exact h
  · exact .inr h

/-- A sequence settles if its parts do, and if its second part waits where the first one does. -/
theorem bind {r : Reader α} {f : α → Reader β} (h : Settles K r s)
    (awaits : ∀ a rest, K rest → (f a rest).Awaits K')
    (settles : ∀ a rest, r s = .done a rest → Settles K' (f a) rest) :
    Settles K' (r >>= f) s := by
  rcases h with h | h
  · exact .inl (awaits_bind h awaits)
  · cases hr : r s with
    | done a rest =>
      refine (settles a rest hr).congr fun t => ?_
      have ht := h t
      rw [hr] at ht
      exact bind_read_of_done ht f
    | failed fault rest =>
      right
      intro t
      obtain ⟨found, rest', ht⟩ : (Reading.failed fault rest).RepeatedOn t (r (s ++ t)) := hr ▸ h t
      rw [bind_read_of_failed hr]
      exact ⟨found, rest', bind_read_of_failed ht f⟩

theorem bind_pure {r : Reader α} {g : α → β} (h : Settles K r s) :
    Settles K (r >>= fun a => Pure.pure (g a)) s :=
  h.bind (fun _ _ hrest => hrest) fun a _ _ => .pure (g a)

/-- A first part that never waits once it has read a value. -/
theorem bind_of_never {r : Reader α} {f : α → Reader β} (h : Settles (fun _ => False) r s)
    (settles : ∀ a rest, r s = .done a rest → Settles K (f a) rest) : Settles K (r >>= f) s :=
  h.bind (fun _ _ hrest => hrest.elim) settles

/-- Blanks are skipped up to the end of the text, or the text goes on behind them. -/
theorem skipBlanks_bind {f : Unit → Reader α} (awaits : (f () []).Awaits K)
    (settles : Settles K (f ()) s.skipBlanks) : Settles K (Reader.skipBlanks >>= f) s := by
  by_cases hs : s.skipBlanks = []
  · left
    rw [bind_read_of_done (skipBlanks_read s), hs]
    exact awaits
  · refine settles.congr fun t => ?_
    rw [bind_read_of_done (skipBlanks_read _), Text.skipBlanks_append_of_ne_nil hs]

theorem current_bind {c : Char} {f : Option Char → Reader α}
    (h : Settles K (f (some c)) (c :: s)) : Settles K (Reader.current >>= f) (c :: s) :=
  h.congr fun _ => rfl

theorem atCall_bind {f : Bool → Reader α} (hcall : isCallAt s) (h : Settles K (f true) s) :
    Settles K (Reader.atCall >>= f) s := by
  refine h.congr fun t => ?_
  rw [bind_read_of_done (atCall_read _), isCallAt_append_right hcall]

theorem atCall_bind_of_outside {c : Char} {f : Bool → Reader α}
    (hout : Text.StartsOutside Char.isAlpha (c :: s)) (h : Settles K (f false) (c :: s)) :
    Settles K (Reader.atCall >>= f) (c :: s) := by
  refine h.congr fun t => ?_
  rw [bind_read_of_done (atCall_read _), isCallAt_eq_false_of_head (hout.append (by simp) t)]

/-- A chain settles if its items do, and if a chain waits where an item does. -/
theorem chain {next : Char → Option (Reader α)} (hnil : K [])
    (awaits : ∀ rest, K rest → (Reader.chain next rest).Awaits K)
    (hitem : ∀ c item, next c = some item → ∀ s, Settles K item s) (s : Text) :
    Settles K (Reader.chain next) s := by
  induction s using Text.induction_by_length with
  | nil =>
    left
    rw [chain_read, chainFrom_of_stop (by simp)]
    exact hnil
  | cons c s ih =>
    cases hnext : next c with
    | none =>
      have hstop (t : Text) : Reader.chain next (c :: s ++ t) = .done [] (c :: s ++ t) := by
        refine chainFrom_of_stop fun d hd => ?_
        rw [← Option.some.inj hd, hnext]
      have hread : Reader.chain next (c :: s) = .done [] (c :: s) := by simpa using hstop []
      exact of_done hread fun _ => hstop
    | some item =>
      refine congr ?_ fun t => chainFrom_cons_of_some hnext (s ++ t)
      refine (hitem c item hnext s).bind (fun a rest hrest => ?_) fun a rest hread => ?_
      · exact awaits_bind_pure (awaits rest hrest)
      · exact (ih rest (length_le_of_done hread)).bind_pure

end Settles

/-! ## Lexemes -/

/-- Looking for one character is settled as soon as the character is there. -/
theorem expect_settles {kind : FaultKind} (hkind : kind.isFinal = false) (c : Char) (s : Text) :
    Settles (fun _ => False) (expect c kind) s := by
  by_cases hs : s.head? = some c
  · obtain ⟨t, rfl⟩ := List.head?_eq_some_iff.1 hs
    exact .of_done (expect_read_self c kind t) fun _ _ => expect_read_self c kind _
  · exact .of_failed (expect_read_of_ne hs kind) hkind

/-- A parenthesis or bracket is awaited where a word has not been read to its end. -/
theorem expect_awaits {K : Text → Prop} {kind : FaultKind} (hkind : kind.isFinal = false) {c : Char}
    (hblank : isBlank c = false) (hpoint : c ≠ '.') {s : Text} (hs : s.Undecided)
    (f : Unit → Reader α) : ((do skipBlanks; let u ← expect c kind; f u) s).Awaits K := by
  rw [bind_read_of_done (skipBlanks_read s),
    bind_read_of_failed (expect_read_of_ne (hs.skipBlanks.head?_ne hblank hpoint) kind)]
  exact hkind

/-- What comes up to a parenthesis or a bracket is read to its end behind it. -/
theorem closing_settles {kind : FaultKind} (hkind : kind.isFinal = false) {c : Char}
    (a : α) (s : Text) :
    Settles (fun _ => False) (do skipBlanks; expect c kind; return a) s := by
  refine .skipBlanks_bind ?_ (expect_settles hkind c _).bind_pure
  rw [bind_read_of_failed (expect_read_of_ne (by simp) kind)]
  exact hkind

/-- A number waits for further digits only at the end of the text. -/
theorem number_settles (s : Text) : Settles Text.Ended number s := by
  cases hread : number s with
  | done n rest =>
    refine .of_done hread fun hrest t => ?_
    obtain ⟨w, hw, hn⟩ := number_eq_done hread
    have hout := startsOutside_of_number hread
    rw [hw, List.append_assoc]
    exact number_append hn (hout.append (Text.ne_nil_of_not_ended hrest) t)
  | failed fault rest =>
    obtain rfl := number_eq_failed hread
    exact .of_failed hread rfl

/-- A string waits for its closing quote, or for a second one behind it. -/
theorem quoted_settles (s : Text) : Settles Text.Ended quoted ('\x27' :: s) := by
  cases hread : quoted ('\x27' :: s) with
  | done v rest =>
    refine .of_done hread fun hrest t => ?_
    obtain ⟨w, hw, hv⟩ := quoted_eq_done hread
    have hquote := head?_of_quoted hread
    rw [hw, List.append_assoc]
    obtain ⟨c, u, rfl⟩ := List.exists_cons_of_ne_nil (Text.ne_nil_of_not_ended hrest)
    exact quoted_append hv hquote
  | failed fault rest =>
    obtain rfl := quoted_eq_failed hread
    exact .of_failed hread rfl

theorem calleeName_of_outside {s : Text} (hs : s ≠ []) (h : s.StartsOutside Char.isAlpha) :
    calleeName (m := Reader) s = .failed (.atStart .invalidFunctionName s) s := by
  have hmiss : functionName s = .done none s := lexeme_read_of_nil (functionNameAt_eq_nil.2 h)
  obtain ⟨c, u, rfl⟩ := List.exists_cons_of_ne_nil hs
  rw [calleeName, lex_functionName, bind_read_of_done hmiss]
  rfl

/-- A callee's name waits at the end of the text, and in front of a point. -/
theorem calleeName_settles (s : Text) : Settles Text.Undecided calleeName s := by
  by_cases hname : functionNameAt s = []
  · by_cases hs : s = []
    · subst hs
      exact .of_atStart .unexpectedEndOfInput rfl rfl
    · have hout := functionNameAt_eq_nil.1 hname
      refine (Settles.fail (s := s) .invalidFunctionName).congr fun t => ?_
      exact calleeName_of_outside (by simp [hs]) (hout.append hs t)
  · have hfound : functionName s = _ := lexeme_read_of_ne_nil hname
    have hread : calleeName (m := Reader) s =
        .done (String.ofList (functionNameAt s)) (s.drop (functionNameAt s).length) := by
      rw [calleeName, lex_functionName, bind_read_of_done hfound]
      rfl
    refine .of_done hread fun hrest t => ?_
    obtain ⟨hfunction, hs⟩ := functionName_eq_some hfound
    have hword := startsOutside_drop_functionNameAt hname
    have happend := calleeName_append hfunction
      (Text.startsOutside_append_of_decided hrest hword t)
    rwa [← List.append_assoc, ← hs] at happend

/-- A boolean in front of a text that decides it is one whatever follows. -/
theorem boolean_append_right {s rest : Text} {b : Bool} (h : boolean s = .done (some b) rest)
    (hcall : isCallAt s = false) (hrest : ¬ rest.Undecided) (t : Text) :
    isCallAt (s ++ t) = false ∧ boolean (s ++ t) = .done (some b) (rest ++ t) := by
  have hs := boolean_eq_some h
  have hword := startsOutside_of_boolean h
  have hname := Text.startsOutside_append_of_decided hrest hword t
  have hopen : (Text.skipBlanks (rest ++ t)).head? ≠ some '(' := by
    have hskip : rest.skipBlanks ≠ [] := fun hnil => hrest (.inl hnil)
    rw [Text.skipBlanks_append_of_ne_nil hskip]
    obtain ⟨w, hw, hrest⟩ := rest.exists_blank_append
    obtain ⟨d, u, hu⟩ := List.exists_cons_of_ne_nil hskip
    intro hd
    obtain rfl : d = '(' := by simpa [hu] using hd
    rw [hs, hrest, hu, isCallAt_append (isFunctionName_booleanText b) hw] at hcall
    cases hcall
  rw [hs, List.append_assoc]
  refine ⟨isCallAt_append_eq_false (isFunctionName_booleanText b) hname hopen, ?_⟩
  exact boolean_append b (hname.mono fun c => isNameChar_of_isWordChar)

section

variable {nested : Reader Expr}

/-- An argument waits where a word may still turn out to be a call. -/
theorem argument_settles (hnested : ∀ s, Settles Text.Ended nested s) (s : Text) :
    Settles Text.Undecided (argument nested) s := by
  cases s with
  | nil => exact .of_atStart .unexpectedEndOfInput rfl rfl
  | cons c s =>
    refine .current_bind ?_
    by_cases hnumber : startsNumber c
    · simp only [if_pos hnumber]
      exact (number_settles _).bind_pure.mono fun _ => Text.Ended.undecided
    · simp only [if_neg hnumber]
      by_cases hquote : c = '\x27'
      · subst hquote
        exact (quoted_settles s).bind_pure.mono fun _ => Text.Ended.undecided
      · simp only [if_neg hquote]
        by_cases hcall : isCallAt (c :: s)
        · exact .atCall_bind hcall ((hnested _).bind_pure.mono fun _ => Text.Ended.undecided)
        · -- What is no call yet may become one, unless a boolean has been read to its end.
          have hcall := Bool.eq_false_iff.2 hcall
          cases hb : boolean (c :: s) with
          | failed fault rest => exact (FaultsAt.boolean (P := fun _ => False) _ _ _ hb).elim
          | done b? rest =>
            cases b? with
            | none =>
              obtain rfl := boolean_eq_none hb
              refine .of_atStart .invalidArgument rfl ?_
              rw [lex_atCall, bind_read_of_done (atCall_read _), hcall]
              exact bind_read_of_done hb _
            | some b =>
              refine .of_done (a := .bool b) (m := rest) ?_ fun hrest t => ?_
              · rw [lex_atCall, bind_read_of_done (atCall_read _), hcall]
                exact bind_read_of_done hb _
              · obtain ⟨hcall', hb'⟩ := boolean_append_right hb hcall hrest t
                rw [lex_atCall, bind_read_of_done (atCall_read _), hcall']
                exact bind_read_of_done hb' _

theorem furtherArgument_settles (hnested : ∀ s, Settles Text.Ended nested s) {c : Char}
    {item : Reader Argument} (hnext : furtherArgument nested c = some item) (s : Text) :
    Settles Text.Undecided item s := by
  simp only [furtherArgument] at hnext
  split at hnext
  next =>
    cases hnext
    refine .skipBlanks_bind rfl ((argument_settles hnested _).bind (fun a rest hrest => ?_) ?_)
    · exact hrest.skipBlanks
    · intro a rest _
      exact .skipBlanks_bind (.inl rfl) (.pure a)
  next => cases hnext

/-- No argument follows where a word has not been read to its end. -/
theorem furtherArguments_awaits {s : Text} (h : s.Undecided) :
    (chain (furtherArgument nested) s).Awaits Text.Undecided := by
  rw [chain_read, chainFrom_of_stop fun c hc => ?_]
  · exact h
  · have hcomma : c ≠ ',' := by
      rintro rfl
      exact h.head?_ne (by decide) (by decide) hc
    rw [furtherArgument, if_neg hcomma]

theorem argumentList_settles (hnested : ∀ s, Settles Text.Ended nested s) (s : Text) :
    Settles Text.Undecided (argumentList nested) s := by
  cases s with
  | nil => exact .inl (.inl rfl)
  | cons c s =>
    refine .current_bind ?_
    dsimp only
    split
    · exact .pure []
    · refine (argument_settles hnested _).bind (fun a rest hrest => ?_) fun a rest _ => ?_
      · rw [lex_skipBlanks, bind_read_of_done (skipBlanks_read rest)]
        exact awaits_bind_pure (furtherArguments_awaits hrest.skipBlanks)
      · refine .skipBlanks_bind (awaits_bind_pure (furtherArguments_awaits (.inl rfl))) ?_
        refine Settles.bind_pure (.chain (.inl rfl) (fun _ => furtherArguments_awaits) ?_ _)
        exact fun c item => furtherArgument_settles hnested

/-- A call ends with its closing parenthesis, so what follows it makes no difference to it. -/
theorem call_settles (hnested : ∀ s, Settles Text.Ended nested s) (s : Text) :
    Settles (fun _ => False) (call nested) s := by
  refine (calleeName_settles s).bind (fun name rest hrest => ?_) fun name s₁ _ => ?_
  · -- The name may go on, but then no parenthesis comes next and it is awaited.
    exact expect_awaits rfl (by decide) (by decide) hrest _
  · refine .skipBlanks_bind rfl ((expect_settles rfl '(' _).bind_of_never fun _ s₂ _ => ?_)
    refine .skipBlanks_bind rfl ?_
    refine (argumentList_settles hnested _).bind (fun args rest hrest => ?_) fun args s₃ _ => ?_
    · exact expect_awaits rfl (by decide) (by decide) hrest _
    · exact closing_settles rfl _ _

/-! ## Steps -/

theorem index_settles (hnested : ∀ s, Settles Text.Ended nested s) (s : Text) :
    Settles Text.Ended (index nested) s := by
  cases s with
  | nil => exact .of_atStart .unterminatedIndex rfl rfl
  | cons c s =>
    refine .current_bind ?_
    by_cases hcall : isCallAt (c :: s)
    · exact .atCall_bind hcall (hnested _).bind_pure
    · have hcall := Bool.eq_false_iff.2 hcall
      by_cases hnumber : startsNumber c
      · have halpha := isAlpha_eq_false_of_startsNumber hnumber
        refine .atCall_bind_of_outside (Text.startsOutside_cons.2 halpha) ?_
        simp only [Bool.false_eq_true, if_false, if_pos hnumber]
        exact (number_settles _).bind_pure
      · by_cases hquote : c = '\x27'
        · subst hquote
          refine .atCall_bind_of_outside (Text.startsOutside_cons.2 (by decide)) ?_
          exact (quoted_settles s).bind_pure
        · refine .of_atStart .invalidIndexValue rfl ?_
          rw [lex_atCall, bind_read_of_done (atCall_read _), hcall]
          simp only [Bool.false_eq_true, if_false, if_neg hnumber, if_neg hquote, lexer_fail,
            fail_read]

theorem memberStep_settles (s : Text) : Settles Text.Ended memberStep s := by
  refine .skipBlanks_bind rfl ?_
  generalize s.skipBlanks = s
  by_cases hname : memberNameAt s = []
  · have hmiss : memberName s = .done none s := lexeme_read_of_nil hname
    refine .of_atStart .invalidMemberName rfl ?_
    rw [lex_memberName, bind_read_of_done hmiss]
    rfl
  · have hfound : memberName s = _ := lexeme_read_of_ne_nil hname
    have hout : Text.StartsOutside isMemberChar (s.drop (memberNameAt s).length) :=
      Text.startsOutside_drop_takeWhile isMemberChar s
    obtain ⟨hmember, hs⟩ := memberName_eq_some hfound
    generalize s.drop (memberNameAt s).length = rest at hfound hout hs
    refine .of_done (a := .member (String.ofList (memberNameAt s))) (m := rest) ?_ fun hrest t => ?_
    · rw [lex_memberName, bind_read_of_done hfound]
      rfl
    · have hread := memberName_append hmember (hout.append (Text.ne_nil_of_not_ended hrest) t)
      rw [← List.append_assoc, ← hs] at hread
      rw [lex_memberName, bind_read_of_done hread]
      rfl

/-- An index step ends with its bracket, so nothing behind it makes a difference. -/
theorem indexStep_settles (hnested : ∀ s, Settles Text.Ended nested s) (s : Text) :
    Settles (fun _ => False) (indexStep nested) s := by
  refine .skipBlanks_bind rfl ?_
  refine (index_settles hnested _).bind (fun i rest hrest => ?_) fun i s₁ _ => ?_
  · exact expect_awaits rfl (by decide) (by decide) hrest.undecided _
  · exact closing_settles rfl _ _

theorem furtherStep_settles (hnested : ∀ s, Settles Text.Ended nested s) {c : Char}
    {item : Reader Step} (hnext : furtherStep nested c = some item) (s : Text) :
    Settles Text.Ended item s := by
  simp only [furtherStep] at hnext
  split at hnext
  next =>
    cases hnext
    refine (memberStep_settles s).bind (fun x rest hrest => ?_) fun x rest _ => ?_
    · rw [lex_skipBlanks, bind_read_of_done (skipBlanks_read rest), hrest]
      rfl
    · exact .skipBlanks_bind rfl (.pure x)
  next =>
    split at hnext
    next =>
      cases hnext
      refine (indexStep_settles hnested s).bind_of_never fun x rest _ => ?_
      exact .skipBlanks_bind rfl (.pure x)
    next => cases hnext

/-- No step follows at the end of the text. -/
theorem steps_awaits {s : Text} (h : s.Ended) : (steps nested s).Awaits Text.Ended := by
  have hstop : steps nested s = .done [] s := by
    refine chainFrom_of_stop fun c hc => ?_
    have hpoint : c ≠ '.' := by
      rintro rfl
      exact h.head?_ne (by decide) hc
    have hbracket : c ≠ '[' := by
      rintro rfl
      exact h.head?_ne (by decide) hc
    rw [furtherStep, if_neg hpoint, if_neg hbracket]
  rw [hstop]
  exact h

/-- An expression waits at the end of the text for a further step. -/
theorem expressionOver_settles (hnested : ∀ s, Settles Text.Ended nested s) (s : Text) :
    Settles Text.Ended (expressionOver nested) s := by
  refine .skipBlanks_bind rfl ((call_settles hnested _).bind_of_never fun c s₁ _ => ?_)
  refine .skipBlanks_bind (awaits_bind_pure (steps_awaits rfl)) (Settles.bind_pure ?_)
  exact .chain (K := Text.Ended) rfl (fun _ => steps_awaits)
    (fun c item => furtherStep_settles hnested) _

end

/-! ## Expressions -/

/-- By induction on the limit, an expression under any limit waits at the end of the text only. -/
theorem expression_settles (limit : Nat) (s : Text) : Settles Text.Ended (expression limit) s := by
  induction limit generalizing s with
  | zero => exact .fail .maxDepthExceeded
  | succ limit ih => exact expressionOver_settles ih s

/-- An expression in brackets waits only while no text is left. -/
theorem enclosed_settles (limit : Nat) (s : Text) : Settles (· = []) (enclosed limit) s := by
  refine (expression_settles limit s).bind (fun e rest hrest => ?_) fun e rest _ => ?_
  · rw [lex_skipBlanks, bind_read_of_done (skipBlanks_read rest), hrest]
    rfl
  · refine .skipBlanks_bind rfl ?_
    cases rest.skipBlanks with
    | nil => exact .inl rfl
    | cons c u =>
      refine .current_bind ?_
      dsimp only
      split
      · -- Behind the closing bracket any further character is a fault.
        cases u with
        | nil => exact .inl rfl
        | cons d u => exact (Settles.fail (s := d :: u) .trailingCharacters).congr fun t => rfl
      · exact .fail .trailingCharacters

end Reader

end BracketExpr
