import BracketExpr.Proofs.Lexeme
import BracketExpr.Tree.Reader

/-!
# Faults show what stands at their point

Every fault of a reader shows a piece of the text at its point, and it shows nothing only where
the text has ended. Most faults are made by `Fault.atStart`, for which this holds by definition;
numbers and quoted texts make their own, which show the text that they have taken.

A kind of fault can say more: some are only met in front of a character, and one only at the end.
Both are matters of the place where the kind is raised, behind a look at the current character.

The parts of an expression raise the same few faults, except where a call starts. So the productions
are gone through once, for any property of these faults; what is left to say of a property is how it
fares at the start of a call and at the nesting limit.
-/

namespace BracketExpr

/-- The kinds of faults that are met in front of a character only. -/
def FaultKind.needsCharacter : FaultKind → Bool
  | invalidFunctionName | invalidArgument | invalidNumber | unterminatedString | invalidIndexValue
  | trailingCharacters => true
  | expectedOpenParen | expectedCloseParen | invalidMemberName | unterminatedIndex
  | maxDepthExceeded | unexpectedEndOfInput => false

/-- The kinds of faults that are raised where a call starts: at its name, in front of its opening
parenthesis, and at the nesting limit. -/
def FaultKind.concernsCall : FaultKind → Bool
  | invalidFunctionName | expectedOpenParen | maxDepthExceeded => true
  | expectedCloseParen | invalidArgument | invalidNumber | unterminatedString | invalidMemberName
  | unterminatedIndex | invalidIndexValue | trailingCharacters | unexpectedEndOfInput => false

/-- A fault shows what stands at its point, and its kind agrees with whether anything does. -/
structure Fault.Faithful (fault : Fault) : Prop where
  found_eq_none : fault.found = none ↔ fault.rest = []
  found_isPrefix : ∀ t, fault.found = some t → t ≠ [] ∧ t <+: fault.rest
  atEnd : fault.kind = .unexpectedEndOfInput → fault.rest = []
  atCharacter : fault.kind.needsCharacter → fault.rest ≠ []

/-- A fault at a character shows this character. -/
theorem Fault.atStart_cons_faithful {kind : FaultKind} (h : kind ≠ .unexpectedEndOfInput)
    (c : Char) (s : Text) : (atStart kind (c :: s)).Faithful where
  found_eq_none := by simp [atStart]
  found_isPrefix t ht := by
    obtain rfl := Option.some.inj ht
    exact ⟨by simp, ⟨s, rfl⟩⟩
  atEnd hkind := absurd hkind h
  atCharacter _ := by simp [atStart]

/-- A fault at the end shows nothing. -/
theorem Fault.atStart_nil_faithful {kind : FaultKind} (h : kind.needsCharacter = false) :
    (atStart kind []).Faithful where
  found_eq_none := by simp [atStart]
  found_isPrefix t ht := by cases ht
  atEnd _ := rfl
  atCharacter hkind := by
    rw [atStart, h] at hkind
    cases hkind

/-- Where a number can start, its scan takes a character. -/
theorem Numeral.scan_ne_nil {c : Char} (h : startsNumber c) (s : Text) : scan (c :: s) ≠ [] := by
  by_cases hminus : c = '-'
  · rw [hminus, scan]
    simp
  · have hdigit : c.isDigit := by simpa [startsNumber, hminus] using h
    rw [scan.eq_2 _ fun v hv => hminus (List.cons.inj hv).1]
    simp [hdigit]

/-- The faults that the parts of an expression raise, other than those at the start of a call. -/
inductive Fault.OfPart : Fault → Prop where
  | atEnd {kind : FaultKind} (hcall : kind.concernsCall = false)
    (hend : kind.needsCharacter = false) : OfPart (atStart kind [])
  | atCharacter {kind : FaultKind} (hcall : kind.concernsCall = false)
    (hchar : kind ≠ .unexpectedEndOfInput) (c : Char) (s : Text) : OfPart (atStart kind (c :: s))
  | number {c : Char} (hc : startsNumber c) (s : Text) :
    OfPart ⟨.invalidNumber, c :: s, some (Numeral.scan (c :: s))⟩
  | quoted (s : Text) : OfPart ⟨.unterminatedString, '\x27' :: s, some ('\x27' :: s)⟩

/-- The faults of the parts of an expression tell what they stand at. -/
theorem Fault.OfPart.faithful {fault : Fault} (h : fault.OfPart) : fault.Faithful := by
  cases h with
  | atEnd _ hend => exact atStart_nil_faithful hend
  | atCharacter _ hchar c s => exact atStart_cons_faithful hchar c s
  | number hc s =>
    refine ⟨by simp, fun t ht => ?_, by simp, by simp⟩
    obtain rfl := Option.some.inj ht
    exact ⟨Numeral.scan_ne_nil hc s, Numeral.scan_isPrefix _⟩
  | quoted s =>
    refine ⟨by simp, fun t ht => ?_, by simp, by simp⟩
    obtain rfl := Option.some.inj ht
    exact ⟨by simp, List.prefix_rfl⟩

/-- The faults of the parts of an expression are none of a call. -/
theorem Fault.OfPart.concernsCall_eq_false {fault : Fault} (h : fault.OfPart) :
    fault.kind.concernsCall = false := by
  cases h with
  | atEnd hcall => exact hcall
  | atCharacter hcall => exact hcall
  | number => rfl
  | quoted => rfl

namespace Reader

open Production

variable {α β : Type}

/-! ## Rules -/

/-- Every fault that `r` meets in the text `s` satisfies `P`. -/
def FaultsAt (P : Fault → Prop) (r : Reader α) (s : Text) : Prop :=
  ∀ fault rest, r s = .failed fault rest → P fault

section

variable {P : Fault → Prop}

theorem FaultsAt.pure (a : α) (s : Text) : FaultsAt P (pure a) s := by
  intro fault rest h
  cases h

theorem FaultsAt.fail {kind : FaultKind} {s : Text} (h : P (.atStart kind s)) :
    FaultsAt P (fail kind : Reader α) s := by
  intro fault rest hfail
  cases hfail
  exact h

/-- The consequence rule for properties of faults. -/
theorem FaultsAt.mono {Q : Fault → Prop} {r : Reader α} {s : Text} (h : FaultsAt P r s)
    (hPQ : ∀ fault, P fault → Q fault) : FaultsAt Q r s :=
  fun fault rest hfail => hPQ fault (h fault rest hfail)

/-- Names are found or missed, without a fault. -/
theorem FaultsAt.lexeme (scan : Text → Text) (s : Text) : FaultsAt P (lexeme scan) s := by
  intro fault rest h
  simp only [Reader.lexeme] at h
  split at h <;> cases h

theorem FaultsAt.boolean (s : Text) : FaultsAt P boolean s := by
  intro fault rest h
  simp only [Reader.boolean] at h
  split at h
  · cases h
  · split at h <;> cases h

/-- A sequence has the faults of its parts, those of the second one behind what the first one
reads. -/
theorem FaultsAt.bind {r : Reader α} {f : α → Reader β} {s : Text} (h : FaultsAt P r s)
    (hf : ∀ a mid, r s = .done a mid → FaultsAt P (f a) mid) : FaultsAt P (r >>= f) s := by
  intro fault rest hfail
  rcases bind_eq_failed.1 hfail with hr | ⟨a, mid, hr, hfail⟩
  · exact h fault rest hr
  · exact hf a mid hr fault rest hfail

/-- A first part that succeeds has no faults of its own. -/
theorem FaultsAt.bind_of_done {r : Reader α} {f : α → Reader β} {s mid : Text} {a : α}
    (h : r s = .done a mid) (hf : FaultsAt P (f a) mid) : FaultsAt P (r >>= f) s := by
  intro fault rest hfail
  rw [bind_read_of_done h] at hfail
  exact hf fault rest hfail

/-- What comes after the last part that can fail adds no faults. -/
theorem FaultsAt.bind_pure {r : Reader α} {f : α → β} {s : Text} (h : FaultsAt P r s) :
    FaultsAt P (r >>= fun a => Pure.pure (f a)) s :=
  h.bind fun a mid _ => .pure (f a) mid

theorem FaultsAt.delay {r : Unit → Reader α} {s : Text} (h : FaultsAt P (r ()) s) :
    FaultsAt P (delay r) s :=
  h

/-- A chain has the faults of its items. -/
theorem FaultsAt.chain {next : Char → Option (Reader α)}
    (h : ∀ c item, next c = some item → ∀ s, FaultsAt P item s) (s : Text) :
    FaultsAt P (chain next) s := by
  intro fault rest hfail
  refine chainFrom_failed_induction (motive := fun _ fault => P fault) ?_ ?_ hfail
  · intro c s item fault rest hnext hitem
    exact h c item hnext s fault rest hitem
  · intro c s item a mid fault hnext hitem ih
    exact ih

end

/-! ## Lexemes -/

/-- A text that is no number is a fault at its start. -/
theorem number_eq_failed {s rest : Text} {fault : Fault} (h : number s = .failed fault rest) :
    fault = ⟨.invalidNumber, s, some (Numeral.scan s)⟩ := by
  simp only [number] at h
  split at h
  next => cases h
  next => cases h; rfl

/-- A quoted text without a closing quote is a fault at its opening quote. -/
theorem quoted_eq_failed {s rest : Text} {fault : Fault}
    (h : quoted ('\x27' :: s) = .failed fault rest) :
    fault = ⟨.unterminatedString, '\x27' :: s, some ('\x27' :: s)⟩ := by
  simp only [quoted] at h
  split at h
  next => cases h
  next => cases h; rfl

/-- A fault at a point is one of a part, unless its kind is reserved for calls, for the end of the
text or for characters. -/
theorem atStart_ofPart {kind : FaultKind} (hcall : kind.concernsCall = false)
    (hend : kind ≠ .unexpectedEndOfInput) (hchar : kind.needsCharacter = false) (s : Text) :
    (Fault.atStart kind s).OfPart := by
  cases s with
  | nil => exact .atEnd hcall hchar
  | cons c s => exact .atCharacter hcall hend c s

theorem expect_ofPart {kind : FaultKind} (hcall : kind.concernsCall = false)
    (hend : kind ≠ .unexpectedEndOfInput) (hchar : kind.needsCharacter = false) (c : Char)
    (s : Text) : FaultsAt Fault.OfPart (expect c kind) s := by
  intro fault rest hfail
  obtain rfl := expect_eq_failed hfail
  exact atStart_ofPart hcall hend hchar s

theorem memberStep_ofPart (s : Text) : FaultsAt Fault.OfPart memberStep s := by
  refine .bind_of_done (skipBlanks_read s) (.bind (.lexeme memberNameAt _) fun name? mid _ => ?_)
  cases name? with
  | some name => exact .pure _ mid
  | none => exact .fail (atStart_ofPart rfl (by decide) rfl mid)

/-! ## Productions -/

/-- A call fails at its name if it has none. -/
theorem calleeName_eq_failed {s rest : Text} {fault : Fault}
    (h : calleeName (m := Reader) s = .failed fault rest) :
    (s = [] ∧ fault = .atStart .unexpectedEndOfInput s) ∨
      (s ≠ [] ∧ fault = .atStart .invalidFunctionName s) := by
  rcases bind_eq_failed.1 h with hr | ⟨name?, mid, hname, hr⟩
  · exact (FaultsAt.lexeme (P := fun _ => False) _ _ _ _ hr).elim
  · cases name? with
    | some name => cases hr
    | none =>
      obtain rfl := lexeme_eq_none hname
      rw [lex_current, bind_read_of_done (current_read mid)] at hr
      cases mid with
      | nil =>
        cases hr
        exact .inl ⟨rfl, rfl⟩
      | cons c mid =>
        cases hr
        exact .inr ⟨by simp, rfl⟩

/-- A missing function name is reported for what stands in its place. -/
theorem calleeName_faithful (s : Text) : FaultsAt Fault.Faithful calleeName s := by
  intro fault rest hfail
  rcases calleeName_eq_failed hfail with ⟨rfl, rfl⟩ | ⟨hne, rfl⟩
  · exact Fault.atStart_nil_faithful (by decide)
  · obtain ⟨c, t, rfl⟩ := List.exists_cons_of_ne_nil hne
    exact Fault.atStart_cons_faithful (by decide) c t

section

variable {nested : Reader Expr}

/-- The ways in which an argument fails: at its start, unless it is a call. -/
theorem argument_eq_failed {s rest : Text} {fault : Fault}
    (h : argument nested s = .failed fault rest) :
    (s = [] ∧ fault = .atStart .unexpectedEndOfInput s) ∨
      (∃ c t, s = c :: t ∧ startsNumber c ∧ number s = .failed fault rest) ∨
      (∃ t, s = '\x27' :: t ∧ quoted s = .failed fault rest) ∨
      (isCallAt s ∧ nested s = .failed fault rest) ∨
      (s ≠ [] ∧ fault = .atStart .invalidArgument s) := by
  rw [argument, lex_current, bind_read_of_done (current_read s)] at h
  cases s with
  | nil =>
    cases h
    exact .inl ⟨rfl, rfl⟩
  | cons c s =>
    dsimp only [List.head?_cons] at h
    split at h
    next hnumber =>
      rcases bind_eq_failed.1 h with hr | ⟨n, mid, -, hr⟩
      · exact .inr (.inl ⟨c, s, rfl, hnumber, hr⟩)
      · cases hr
    next =>
      split at h
      next hquote =>
        subst hquote
        rcases bind_eq_failed.1 h with hr | ⟨v, mid, -, hr⟩
        · exact .inr (.inr (.inl ⟨s, rfl, hr⟩))
        · cases hr
      next =>
        rw [lex_atCall, bind_read_of_done (atCall_read _)] at h
        split at h
        next hcall =>
          rcases bind_eq_failed.1 h with hr | ⟨e, mid, -, hr⟩
          · exact .inr (.inr (.inr (.inl ⟨hcall, hr⟩)))
          · cases hr
        next =>
          rcases bind_eq_failed.1 h with hr | ⟨b?, mid, hb, hr⟩
          · exact (FaultsAt.boolean (P := fun _ => False) _ _ _ hr).elim
          · cases b? with
            | some b => cases hr
            | none =>
              -- A word that is no boolean is left as it is, so the fault has a character to show.
              rw [boolean_eq_none hb] at hr
              cases hr
              exact .inr (.inr (.inr (.inr ⟨by simp, rfl⟩)))

/-- The ways in which an index fails: at its start, unless it is a call. -/
theorem index_eq_failed {s rest : Text} {fault : Fault} (h : index nested s = .failed fault rest) :
    (s = [] ∧ fault = .atStart .unterminatedIndex s) ∨
      (∃ c t, s = c :: t ∧ startsNumber c ∧ number s = .failed fault rest) ∨
      (∃ t, s = '\x27' :: t ∧ quoted s = .failed fault rest) ∨
      (isCallAt s ∧ nested s = .failed fault rest) ∨
      (s ≠ [] ∧ fault = .atStart .invalidIndexValue s) := by
  rw [index, lex_current, bind_read_of_done (current_read s)] at h
  cases s with
  | nil =>
    cases h
    exact .inl ⟨rfl, rfl⟩
  | cons c s =>
    dsimp only [List.head?_cons] at h
    rw [lex_atCall, bind_read_of_done (atCall_read _)] at h
    split at h
    next hcall =>
      rcases bind_eq_failed.1 h with hr | ⟨e, mid, -, hr⟩
      · exact .inr (.inr (.inr (.inl ⟨hcall, hr⟩)))
      · cases hr
    next =>
      split at h
      next hnumber =>
        rcases bind_eq_failed.1 h with hr | ⟨n, mid, -, hr⟩
        · exact .inr (.inl ⟨c, s, rfl, hnumber, hr⟩)
        · cases hr
      next =>
        split at h
        next hquote =>
          subst hquote
          rcases bind_eq_failed.1 h with hr | ⟨v, mid, -, hr⟩
          · exact .inr (.inr (.inl ⟨s, rfl, hr⟩))
          · cases hr
        next =>
          cases h
          exact .inr (.inr (.inr (.inr ⟨by simp, rfl⟩)))

/-! ## Productions and a property of faults

The property `P` holds of the faults of all parts, and nested expressions, which are only read where
a call can be seen, keep to it. -/

section

variable {P : Fault → Prop} (hpart : ∀ fault : Fault, fault.OfPart → P fault)
  (hnested : ∀ s, isCallAt s → FaultsAt P nested s)

include hpart hnested

/-- The faults of an argument are its own or those of an expression nested in it. -/
theorem argument_faultsAt (s : Text) : FaultsAt P (argument nested) s := by
  intro fault rest hfail
  rcases argument_eq_failed hfail with
    ⟨rfl, rfl⟩ | ⟨c, t, rfl, hc, hn⟩ | ⟨t, rfl, hq⟩ | ⟨hcall, he⟩ | ⟨hne, rfl⟩
  · exact hpart _ (.atEnd rfl rfl)
  · obtain rfl := number_eq_failed hn
    exact hpart _ (.number hc t)
  · obtain rfl := quoted_eq_failed hq
    exact hpart _ (.quoted t)
  · exact hnested s hcall fault rest he
  · obtain ⟨c, t, rfl⟩ := List.exists_cons_of_ne_nil hne
    exact hpart _ (.atCharacter rfl (by decide) c t)

theorem furtherArgument_faultsAt {c : Char} {item : Reader Argument}
    (hitem : furtherArgument nested c = some item) (s : Text) : FaultsAt P item s := by
  simp only [furtherArgument] at hitem
  split at hitem
  · cases hitem
    refine .bind_of_done (skipBlanks_read s) ?_
    refine (argument_faultsAt hpart hnested _).bind fun a mid _ => ?_
    exact .bind_of_done (skipBlanks_read mid) (.pure a _)
  · cases hitem

theorem argumentList_faultsAt (s : Text) : FaultsAt P (argumentList nested) s := by
  refine .bind_of_done (current_read s) ?_
  cases s with
  | nil => exact .pure [] []
  | cons c s =>
    dsimp only [List.head?_cons]
    by_cases hclose : c = ')'
    · rw [if_pos hclose]
      exact .pure [] _
    · rw [if_neg hclose]
      refine (argument_faultsAt hpart hnested _).bind fun a mid _ => ?_
      refine .bind_of_done (skipBlanks_read mid) ?_
      exact (FaultsAt.chain (fun c item => furtherArgument_faultsAt hpart hnested) _).bind_pure

/-- A call keeps to `P` if it does so up to its opening parenthesis. -/
theorem call_faultsAt {s : Text} (hname : FaultsAt P calleeName s)
    (hopen : ∀ name mid, calleeName (m := Reader) s = .done name mid →
      FaultsAt P (expect '(' .expectedOpenParen) mid.skipBlanks) :
    FaultsAt P (call nested) s := by
  refine hname.bind fun name mid hread => .bind_of_done (skipBlanks_read mid) ?_
  refine (hopen name mid hread).bind fun _ s _ => .bind_of_done (skipBlanks_read s) ?_
  refine (argumentList_faultsAt hpart hnested _).bind fun args s _ => ?_
  refine .bind_of_done (skipBlanks_read s) ?_
  exact ((expect_ofPart rfl (by decide) rfl ')' _).mono hpart).bind_pure

/-- The faults of an index are its own or those of an expression nested in it. -/
theorem index_faultsAt (s : Text) : FaultsAt P (index nested) s := by
  intro fault rest hfail
  rcases index_eq_failed hfail with
    ⟨rfl, rfl⟩ | ⟨c, t, rfl, hc, hn⟩ | ⟨t, rfl, hq⟩ | ⟨hcall, he⟩ | ⟨hne, rfl⟩
  · exact hpart _ (.atEnd rfl rfl)
  · obtain rfl := number_eq_failed hn
    exact hpart _ (.number hc t)
  · obtain rfl := quoted_eq_failed hq
    exact hpart _ (.quoted t)
  · exact hnested s hcall fault rest he
  · obtain ⟨c, t, rfl⟩ := List.exists_cons_of_ne_nil hne
    exact hpart _ (.atCharacter rfl (by decide) c t)

/-- An index step has the faults of its index, and one more at its closing bracket. -/
theorem indexStep_faultsAt (s : Text) : FaultsAt P (indexStep nested) s := by
  refine .bind_of_done (skipBlanks_read s) ?_
  refine (index_faultsAt hpart hnested _).bind fun i s _ => .bind_of_done (skipBlanks_read s) ?_
  exact ((expect_ofPart rfl (by decide) rfl ']' _).mono hpart).bind_pure

/-- Each step of an accessor has faults of parts only, or those of nested expressions. -/
theorem furtherStep_faultsAt {c : Char} {item : Reader Step}
    (hitem : furtherStep nested c = some item) (s : Text) : FaultsAt P item s := by
  simp only [furtherStep] at hitem
  split at hitem
  · cases hitem
    refine ((memberStep_ofPart s).mono hpart).bind fun x mid _ => ?_
    exact .bind_of_done (skipBlanks_read mid) (.pure x _)
  · split at hitem
    · cases hitem
      refine (indexStep_faultsAt hpart hnested s).bind fun x mid _ => ?_
      exact .bind_of_done (skipBlanks_read mid) (.pure x _)
    · cases hitem

end

end

/-- An expression keeps to `P` if the expressions nested in it do and its call does so up to its
opening parenthesis. -/
theorem expression_succ_faultsAt {P : Fault → Prop} {limit : Nat} {s : Text}
    (hpart : ∀ fault : Fault, fault.OfPart → P fault)
    (hnested : ∀ s, isCallAt s → FaultsAt P (expression limit) s)
    (hname : FaultsAt P calleeName s.skipBlanks)
    (hopen : ∀ name mid, calleeName (m := Reader) s.skipBlanks = .done name mid →
      FaultsAt P (expect '(' .expectedOpenParen) mid.skipBlanks) :
    FaultsAt P (expression (limit + 1)) s := by
  rw [expression]
  refine .delay (.bind_of_done (skipBlanks_read s) ?_)
  refine (call_faultsAt hpart hnested hname hopen).bind fun c s _ => ?_
  refine .bind_of_done (skipBlanks_read s) ?_
  exact (FaultsAt.chain (fun c item => furtherStep_faultsAt hpart hnested) _).bind_pure

/-! ## Expressions -/

/-- The faults of expressions are faithful, by induction on the levels that may be opened. -/
theorem expression_faithful (limit : Nat) (s : Text) :
    FaultsAt Fault.Faithful (expression limit) s := by
  induction limit generalizing s with
  | zero =>
    cases s with
    | nil => exact .fail (Fault.atStart_nil_faithful (by decide))
    | cons c s => exact .fail (Fault.atStart_cons_faithful (by decide) c s)
  | succ limit ih =>
    refine expression_succ_faultsAt (fun _ => Fault.OfPart.faithful) (fun s _ => ih s)
      (calleeName_faithful _) fun name mid _ fault rest hfail => ?_
    obtain rfl := expect_eq_failed hfail
    cases mid.skipBlanks with
    | nil => exact Fault.atStart_nil_faithful (by decide)
    | cons c t => exact Fault.atStart_cons_faithful (by decide) c t

/-- The ways in which an enclosed expression fails behind its expression: the closing bracket is
missing at the end or in front of another character, or more text follows it. -/
theorem enclosed_eq_failed {limit : Nat} {s rest : Text} {fault : Fault}
    (h : enclosed limit s = .failed fault rest) :
    expression limit s = .failed fault rest ∨ ∃ e mid, expression limit s = .done e mid ∧
      ((mid.skipBlanks = [] ∧ fault = .atStart .unexpectedEndOfInput []) ∨
        (∃ c t, mid.skipBlanks = c :: t ∧ c ≠ ']' ∧
          fault = .atStart .trailingCharacters (c :: t)) ∨
        ∃ c t, mid.skipBlanks = ']' :: c :: t ∧ fault = .atStart .trailingCharacters (c :: t)) := by
  rcases bind_eq_failed.1 h with hexpr | ⟨e, mid, hexpr, h₁⟩
  · exact .inl hexpr
  · refine .inr ⟨e, mid, hexpr, ?_⟩
    rw [lex_skipBlanks, lex_current, bind_read_of_done (skipBlanks_read mid),
      bind_read_of_done (current_read _)] at h₁
    generalize mid.skipBlanks = s₁ at h₁
    cases s₁ with
    | nil =>
      cases h₁
      exact .inl ⟨rfl, rfl⟩
    | cons c s₁ =>
      dsimp only [List.head?_cons] at h₁
      split at h₁
      next hclose =>
        rw [lex_advance, bind_read_of_done (advance_read _),
          bind_read_of_done (current_read _)] at h₁
        cases s₁ with
        | nil => cases h₁
        | cons d s₁ =>
          cases h₁
          exact .inr (.inr ⟨d, s₁, by rw [hclose], rfl⟩)
      next hclose =>
        cases h₁
        exact .inr (.inl ⟨c, s₁, rfl, hclose, rfl⟩)

/-- The faults of enclosed expressions tell what they stand at. -/
theorem enclosed_faithful (limit : Nat) (s : Text) :
    FaultsAt Fault.Faithful (enclosed limit) s := by
  intro fault rest hfail
  rcases enclosed_eq_failed hfail with
    hexpr | ⟨e, mid, -, ⟨-, rfl⟩ | ⟨c, t, -, -, rfl⟩ | ⟨c, t, -, rfl⟩⟩
  · exact expression_faithful limit s fault rest hexpr
  · exact Fault.atStart_nil_faithful (by decide)
  · exact Fault.atStart_cons_faithful (by decide) c t
  · exact Fault.atStart_cons_faithful (by decide) c t

end Reader

end BracketExpr
