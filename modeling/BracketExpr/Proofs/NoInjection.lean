import BracketExpr.Proofs.DiagnosticPlace
import BracketExpr.Proofs.NestedReading
import BracketExpr.Proofs.QuoteBoundary
import BracketExpr.Proofs.RoundTrip
import BracketExpr.Proofs.TextPlace

/-!
# Quoted text cannot inject syntax

Let a text in quotes stand between two fixed texts. Whatever the text says, it becomes one leaf of
the tree as a whole, or reading fails in the same way in front of it or behind it.

The readings for all quoted texts are compared at once. As long as the quotes have not been reached
every reading does the same, for no lexeme is decided by more than the opening quote. At the quotes
a production either fails or takes all that stands between them. Behind them the remaining text is
the same for all readings, and the values that have been read differ in the one leaf.
-/

namespace BracketExpr

variable {α β : Type}

/-! ## Readings for all quoted texts -/

/-- The text `v` in quotes, with `b` behind it. -/
def Quoted.inFrontOf (b : Text) (v : String) : Text :=
  encode v.toList ++ b

/-- Whatever is quoted, its first character is the opening quote. -/
theorem Quoted.inFrontOf_eq_cons (b : Text) (v : String) :
    ∃ t, inFrontOf b v = '\x27' :: t :=
  ⟨_, rfl⟩

/-- The readings `r v` for all texts `v` between quotes in front of `b` are alike. They stop, with a
value or a fault, at one point in front of the quotes, with nothing read that depends on `v`, or at
one point behind the quotes, where `P` tells how the value holds `v`. -/
inductive Alike (b : Text) (P : (String → α) → Prop) (r : String → Reading α) : Prop where
  | doneBefore (a : α) (u : Text) (hu : u.ClosesQuotes)
    (h : ∀ v, r v = .done a (u ++ Quoted.inFrontOf b v))
  | doneBehind (a : String → α) (rest : Text) (ha : P a) (hrest : rest <:+ b)
    (h : ∀ v, r v = .done (a v) rest)
  | failedBefore (kind : FaultKind) (found : Option Text) (u : Text) (rest : String → Text)
    (h : ∀ v, r v = .failed ⟨kind, u ++ Quoted.inFrontOf b v, found⟩ (rest v))
  | failedBehind (fault : Fault) (rest : Text) (hrest : fault.rest <:+ b)
    (h : ∀ v, r v = .failed fault rest)

namespace Alike

variable {b : Text} {P : (String → α) → Prop} {Q : (String → β) → Prop}

theorem congr {r r' : String → Reading α} (h : Alike b P r) (heq : ∀ v, r' v = r v) :
    Alike b P r' := by
  obtain rfl : r' = r := funext heq
  exact h

/-- A value that holds the text has been read. -/
theorem pure {a : String → α} {rest : Text} (ha : P a) (hrest : rest <:+ b) :
    Alike b P fun v => (Pure.pure (a v) : Reader α) rest :=
  .doneBehind a rest ha hrest fun _ => rfl

/-- A sequence whose first part is read for all texts alike. -/
theorem bind {r : Reader α} {f : α → Reader β} {s : String → Text} (h : Alike b P fun v => r (s v))
    (before : ∀ a u, u.ClosesQuotes → (∀ v, r (s v) = .done a (u ++ Quoted.inFrontOf b v)) →
      Alike b Q fun v => f a (u ++ Quoted.inFrontOf b v))
    (behind : ∀ a rest, P a → rest <:+ b → Alike b Q fun v => f (a v) rest) :
    Alike b Q fun v => (r >>= f) (s v) := by
  cases h with
  | doneBefore a u hu h =>
    exact (before a u hu h).congr fun v => Reader.bind_read_of_done (h v) f
  | doneBehind a rest ha hrest h =>
    exact (behind a rest ha hrest).congr fun v => Reader.bind_read_of_done (h v) f
  | failedBefore kind found u rest h =>
    exact .failedBefore kind found u rest fun v => Reader.bind_read_of_failed (h v) f
  | failedBehind fault rest hrest h =>
    exact .failedBehind fault rest hrest fun v => Reader.bind_read_of_failed (h v) f

/-- Behind the quotes the first part of a sequence is read without regard to the text, and only the
value that is made of it in the end depends on the text. -/
theorem bind_behind {r : Reader α} {f : String → α → Reader β} {m : Text} (hm : m <:+ b)
    (hf : ∀ a rest, rest <:+ b → Alike b Q fun v => f v a rest) :
    Alike b Q fun v => (r >>= f v) m := by
  have hwithin := r.within m
  cases hr : r m with
  | done a rest =>
    rw [hr] at hwithin
    exact (hf a rest (hwithin.trans hm)).congr fun v => Reader.bind_read_of_done hr (f v)
  | failed fault rest =>
    rw [hr] at hwithin
    exact .failedBehind fault rest (hwithin.2.trans hm) fun v => Reader.bind_read_of_failed hr (f v)

/-- A failure behind the quotes is one failure for all quoted texts. -/
theorem fail_behind {m : Text} (hm : m <:+ b) (kind : FaultKind) :
    Alike b P fun _ => (Reader.fail kind : Reader α) m :=
  .failedBehind (.atStart kind m) m hm fun _ => rfl

/-- What is read behind the quotes does not see the quoted text; it may only be put beside it. -/
theorem bind_pure_behind {r : Reader α} {g : String → α → β} {m : Text} (hm : m <:+ b)
    (hg : ∀ a, Q fun v => g v a) :
    Alike b Q fun v => (r >>= fun a => (Pure.pure (g v a) : Reader β)) m :=
  .bind_behind hm fun a _ hrest => .pure (hg a) hrest

end Alike

namespace Reader

open Production

/-- From every point in front of the quotes that leaves no other quoted text open, the reader reads
all quoted texts alike. -/
def ReadsAlike (b : Text) (P : (String → α) → Prop) (r : Reader α) : Prop :=
  ∀ u : Text, u.ClosesQuotes → Alike b P fun v => r (u ++ Quoted.inFrontOf b v)

namespace ReadsAlike

variable {b : Text} {P : (String → α) → Prop} {Q : (String → β) → Prop}

theorem pure (a : α) : ReadsAlike b P (Pure.pure a : Reader α) :=
  fun u hu => .doneBefore a u hu fun _ => rfl

/-- A failure in front of the quotes shows at most the opening quote, which all quoted texts
share. -/
theorem fail (kind : FaultKind) : ReadsAlike b P (Reader.fail kind : Reader α) := by
  intro u _
  cases u with
  | nil => exact .failedBefore kind (some ['\x27']) [] _ fun v => rfl
  | cons c u => exact .failedBefore kind (some [c]) (c :: u) _ fun v => rfl

/-- Two readers in a row read alike if the second does so from both sides of the quotes. -/
theorem bind {r : Reader α} {f : α → Reader β} (h : ReadsAlike b P r)
    (before : ∀ a, ReadsAlike b Q (f a))
    (behind : ∀ a m, P a → m <:+ b → Alike b Q fun v => f (a v) m) :
    ReadsAlike b Q (r >>= f) :=
  fun u hu => (h u hu).bind (fun a u' hu' _ => before a u' hu') behind

/-- A sequence whose first part always stops in front of the quotes. -/
theorem bind_none {r : Reader α} {f : α → Reader β} (h : ReadsAlike b HoldsNone r)
    (before : ∀ a, ReadsAlike b Q (f a)) : ReadsAlike b Q (r >>= f) :=
  h.bind before fun _ _ ha _ => ha.elim

/-- Wrapping a value keeps readings alike, as long as the wrapped value holds the quoted text as
well. -/
theorem bind_pure {r : Reader α} {g : α → β} (h : ReadsAlike b P r)
    (hg : ∀ a, P a → Q fun v => g (a v)) :
    ReadsAlike b Q (r >>= fun a => Pure.pure (g a)) :=
  h.bind (fun a => .pure (g a)) fun a _ ha hm => .pure (hg a ha) hm

/-! ## Lexemes -/

theorem current : ReadsAlike b HoldsNone Reader.current := by
  intro u hu
  cases u with
  | nil => exact .doneBefore (some '\x27') [] hu fun v => rfl
  | cons c u => exact .doneBefore (some c) (c :: u) hu fun v => rfl

theorem skipBlanks : ReadsAlike b HoldsNone Reader.skipBlanks := by
  intro u hu
  refine .doneBefore () u.skipBlanks hu.skipBlanks fun v => ?_
  exact congrArg (Reading.done ()) (Text.skipBlanks_append_quote u _)

/-- Whether a call stands in front of the quotes is decided in front of them. -/
theorem atCall : ReadsAlike b HoldsNone Reader.atCall := by
  intro u hu
  refine .doneBefore (isCallAt u) u hu fun v => ?_
  exact congrArg (Reading.done · _) (isCallAt_append_quote u _)

/-- Looking for a character other than the quote never looks behind the opening quote. -/
theorem expect {c : Char} (hc : c ≠ '\x27') (kind : FaultKind) :
    ReadsAlike b HoldsNone (Production.expect c kind) := by
  intro u hu
  cases u with
  | nil =>
    refine (fail kind [] hu).congr fun v => expect_read_of_ne (fun h => ?_) kind
    exact hc (Option.some.inj h).symm
  | cons d u =>
    by_cases hd : d = c
    · subst hd
      have hu' : Text.ClosesQuotes u := hu.of_append (w := [d]) (by simpa using hc.symm)
      exact .doneBefore () u hu' fun v => expect_read_self d kind _
    · refine (fail kind (d :: u) hu).congr fun v => expect_read_of_ne (fun h => ?_) kind
      exact hd (Option.some.inj h)

/-- A scan that stops at a quote reads the same lexeme whatever is quoted. -/
theorem lexeme {scan : Text → Text} (hscan : ∀ u t, scan (u ++ '\x27' :: t) = scan u)
    (hstarts : ∀ u, scan u <+: u) (hquote : ∀ u, '\x27' ∉ scan u) :
    ReadsAlike b HoldsNone (Reader.lexeme scan) := by
  intro u hu
  have hscan' (v : String) : scan (u ++ Quoted.inFrontOf b v) = scan u := hscan u _
  by_cases hw : scan u = []
  · exact .doneBefore none u hu fun v => lexeme_read_of_nil ((hscan' v).trans hw)
  · have hdrop := hu.drop (hstarts u) (hquote u)
    refine .doneBefore (some (String.ofList (scan u))) _ hdrop fun v => ?_
    rw [lexeme_read_of_ne_nil (by rwa [hscan']), hscan', Text.drop_prefix_append (hstarts u)]

theorem boolean : ReadsAlike b HoldsNone Reader.boolean := by
  intro u hu
  have hword (w : Bool) (v : String) : isWordAt (booleanText w) (u ++ Quoted.inFrontOf b v) =
      isWordAt (booleanText w) u := isWordAt_append_quote (quote_notMem_booleanText w) u _
  have htake (w : Bool) (h : isWordAt (booleanText w) u) : booleanText w <+: u :=
    List.isPrefixOf_iff_prefix.1 (Bool.and_eq_true_iff.1 h).1
  by_cases htrue : isWordAt (booleanText true) u
  · have hdrop := hu.drop (htake true htrue) (quote_notMem_booleanText _)
    refine .doneBefore (some true) _ hdrop fun v => ?_
    rw [← Text.drop_prefix_append (htake true htrue)]
    simp only [Reader.boolean, hword, htrue, if_true]
  · by_cases hfalse : isWordAt (booleanText false) u
    · have hdrop := hu.drop (htake false hfalse) (quote_notMem_booleanText _)
      refine .doneBefore (some false) _ hdrop fun v => ?_
      rw [← Text.drop_prefix_append (htake false hfalse)]
      simp [Reader.boolean, hword, htrue, hfalse]
    · exact .doneBefore none u hu fun v => by simp [Reader.boolean, hword, htrue, hfalse]

theorem number : ReadsAlike b HoldsNone Reader.number := by
  intro u hu
  have hscan (v : String) : Numeral.scan (u ++ Quoted.inFrontOf b v) = Numeral.scan u :=
    Numeral.scan_append_quote u _
  have hstarts := Numeral.scan_isPrefix u
  cases hvalue : (Numeral.value? (Numeral.scan u)).bind Numeral.int64? with
  | some n =>
    refine .doneBefore n _ (hu.drop hstarts (Numeral.quote_notMem_scan u)) fun v => ?_
    rw [← Text.drop_prefix_append hstarts]
    simp only [Reader.number, hscan, hvalue]
  | none =>
    refine .failedBefore .invalidNumber (some (Numeral.scan u)) u
      (fun v => u.drop (Numeral.scan u).length ++ Quoted.inFrontOf b v) fun v => ?_
    rw [← Text.drop_prefix_append hstarts]
    simp only [Reader.number, hscan, hvalue]

/-- The place where a text is taken: here the quotes are opened, and all that stands between them
is read. -/
theorem quoted (hb : b.head? ≠ some '\x27') : ReadsAlike b (· = fun v => v) Reader.quoted := by
  intro u hu
  cases u with
  | nil =>
    refine .doneBehind _ b rfl List.suffix_rfl fun v => ?_
    exact quoted_append (Quoted.isQuoted_encode v.toList) hb
  | cons c u =>
    by_cases hc : c = '\x27'
    · subst hc
      have hodd : Odd (u.count '\x27') := by
        have heven := hu.even
        rwa [List.count_cons_self, Nat.even_add_one, Nat.not_even_iff_odd] at heven
      obtain ⟨v', u', hu', hbody⟩ :=
        Quoted.exists_body_append hodd (Text.getLast?_ne_of_append (w := ['\x27']) hu.last)
      refine .doneBefore (String.ofList v') u' hu' fun v => ?_
      simp only [List.cons_append, Reader.quoted, hbody]
    · refine (fail .invalidArgument (c :: u) hu).congr fun v => ?_
      simp only [List.cons_append, Reader.quoted]
      split
      next h => exact absurd (List.cons.inj h).1 hc
      next => rfl

/-! ## Chains -/

/-- A chain that no quote continues. -/
theorem chain {next : Char → Option (Reader α)} (hquote : next '\x27' = none)
    (hitem : ∀ c item, next c = some item → ReadsAlike b P item) :
    ReadsAlike b (HoldsOne P) (Reader.chain next) := by
  intro u hu
  induction u using Text.induction_by_length with
  | nil =>
    refine .doneBefore [] [] hu fun v => chainFrom_of_stop fun c hc => ?_
    rw [← Option.some.inj hc, hquote]
  | cons c u ih =>
    cases hnext : next c with
    | none =>
      refine .doneBefore [] (c :: u) hu fun v => chainFrom_of_stop fun d hd => ?_
      rw [← Option.some.inj hd, hnext]
    | some item =>
      -- The opening character is no quote, so the item starts in front of the quotes as well.
      have hc : '\x27' ∉ [c] := by
        intro h
        rw [← List.mem_singleton.1 h, hquote] at hnext
        cases hnext
      have hu' : Text.ClosesQuotes u := hu.of_append (w := [c]) hc
      refine Alike.congr ?_ fun v => chainFrom_cons_of_some hnext (u ++ Quoted.inFrontOf b v)
      refine (hitem c item hnext u hu').bind (fun a u' hu' hread => ?_) fun a rest ha hrest => ?_
      · have hlength := length_le_of_done (hread "")
        rw [List.length_append, List.length_append] at hlength
        refine (ih u' (by omega) hu').bind (fun as u'' hu'' _ => ?_) fun as rest has hrest => ?_
        · exact pure (a :: as) u'' hu''
        · exact .pure (has.cons_right a) hrest
      · exact .bind_pure_behind hrest fun as => .cons_left ha as

end ReadsAlike

/-! ## Productions -/

section

variable {b : Text} {nested : Reader Expr}

/-- An argument is in front of the quotes, is the quoted text itself, or has it nested inside. -/
theorem argument_readsAlike (hb : b.head? ≠ some '\x27') (h : ReadsAlike b Expr.Holds nested) :
    ReadsAlike b Argument.Holds (argument nested) := by
  refine .bind_none .current fun c? => ?_
  cases c? with
  | none => exact .fail _
  | some c =>
    dsimp only
    split
    · exact .bind_none .number fun n => .pure _
    · split
      · refine (ReadsAlike.quoted hb).bind_pure fun v hv => ?_
        exact ⟨.here, by rw [hv]; rfl⟩
      · refine .bind_none .atCall fun isCall => ?_
        split
        · refine h.bind_pure fun e he => ?_
          obtain ⟨place, rfl⟩ := he
          exact ⟨.nested place, rfl⟩
        · refine .bind_none .boolean fun b? => ?_
          cases b? with
          | none => exact .fail _
          | some b => exact .pure _

theorem furtherArgument_readsAlike (hb : b.head? ≠ some '\x27')
    (h : ReadsAlike b Expr.Holds nested) {c : Char} {item : Reader Argument}
    (hnext : furtherArgument nested c = some item) : ReadsAlike b Argument.Holds item := by
  simp only [furtherArgument] at hnext
  split at hnext
  next =>
    cases hnext
    refine .bind_none .skipBlanks fun _ => (argument_readsAlike hb h).bind (fun a => ?_) ?_
    · exact .bind_none .skipBlanks fun _ => .pure a
    · intro a m ha hm
      exact .bind_pure_behind hm fun _ => ha
  next => cases hnext

/-- Of a list of arguments, at most one holds the quoted text. -/
theorem argumentList_readsAlike (hb : b.head? ≠ some '\x27') (h : ReadsAlike b Expr.Holds nested) :
    ReadsAlike b (HoldsOne Argument.Holds) (argumentList nested) := by
  have hchain : ReadsAlike b (HoldsOne Argument.Holds) (chain (furtherArgument nested)) :=
    .chain rfl fun c item => furtherArgument_readsAlike hb h
  refine .bind_none .current fun c? => ?_
  cases c? with
  | none => exact .pure _
  | some c =>
    dsimp only
    split
    · exact .pure _
    · refine (argument_readsAlike hb h).bind (fun a => .bind_none .skipBlanks fun _ => ?_) ?_
      · exact hchain.bind_pure fun as has => has.cons_right a
      · intro a m ha hm
        refine .bind_behind hm fun _ m' hm' => ?_
        exact .bind_pure_behind hm' fun as => .cons_left ha as

theorem calleeName_readsAlike : ReadsAlike b HoldsNone calleeName := by
  have hname : ReadsAlike b HoldsNone functionName :=
    .lexeme functionNameAt_append_quote functionNameAt_isPrefix quote_notMem_functionNameAt
  refine .bind_none hname fun name? => ?_
  cases name? with
  | some name => exact .pure name
  | none =>
    refine .bind_none .current fun c? => ?_
    cases c? <;> exact .fail _

theorem call_readsAlike (hb : b.head? ≠ some '\x27') (h : ReadsAlike b Expr.Holds nested) :
    ReadsAlike b Call.Holds (call nested) := by
  refine .bind_none calleeName_readsAlike fun name => .bind_none .skipBlanks fun _ => ?_
  refine .bind_none (.expect (by decide) _) fun _ => .bind_none .skipBlanks fun _ => ?_
  refine (argumentList_readsAlike hb h).bind (fun args => .bind_none .skipBlanks fun _ => ?_) ?_
  · exact .bind_none (.expect (by decide) _) fun _ => .pure _
  · intro args m hargs hm
    refine .bind_behind hm fun _ m' hm' => ?_
    exact .bind_pure_behind hm' fun _ => ⟨name, args, hargs, rfl⟩

/-- An index holds the quoted text as its literal or in its nested expression. -/
theorem index_readsAlike (hb : b.head? ≠ some '\x27') (h : ReadsAlike b Expr.Holds nested) :
    ReadsAlike b Index.Holds (index nested) := by
  refine .bind_none .current fun c? => ?_
  cases c? with
  | none => exact .fail _
  | some c =>
    refine .bind_none .atCall fun isCall => ?_
    split
    · refine h.bind_pure fun e he => ?_
      obtain ⟨place, rfl⟩ := he
      exact ⟨.nested place, rfl⟩
    · split
      · exact .bind_none .number fun n => .pure _
      · split
        · refine (ReadsAlike.quoted hb).bind_pure fun v hv => ?_
          exact ⟨.here, by rw [hv]; rfl⟩
        · exact .fail _

theorem memberStep_readsAlike : ReadsAlike b HoldsNone memberStep := by
  have hname : ReadsAlike b HoldsNone memberName :=
    .lexeme memberNameAt_append_quote (fun _ => List.takeWhile_prefix _) quote_notMem_memberNameAt
  refine .bind_none .skipBlanks fun _ => .bind_none hname fun name? => ?_
  cases name? with
  | some name => exact .pure _
  | none => exact .fail _

theorem indexStep_readsAlike (hb : b.head? ≠ some '\x27') (h : ReadsAlike b Expr.Holds nested) :
    ReadsAlike b Step.Holds (indexStep nested) := by
  refine .bind_none .skipBlanks fun _ => ?_
  refine (index_readsAlike hb h).bind (fun i => .bind_none .skipBlanks fun _ => ?_) ?_
  · exact .bind_none (.expect (by decide) _) fun _ => .pure _
  · intro i m hi hm
    refine .bind_behind hm fun _ m' hm' => ?_
    exact .bind_pure_behind hm' fun _ => ⟨i, hi, rfl⟩

theorem furtherStep_readsAlike (hb : b.head? ≠ some '\x27') (h : ReadsAlike b Expr.Holds nested)
    {c : Char} {item : Reader Step} (hnext : furtherStep nested c = some item) :
    ReadsAlike b Step.Holds item := by
  simp only [furtherStep] at hnext
  split at hnext
  next =>
    cases hnext
    exact .bind_none memberStep_readsAlike fun x => .bind_none .skipBlanks fun _ => .pure x
  next =>
    split at hnext
    next =>
      cases hnext
      refine (indexStep_readsAlike hb h).bind (fun x => ?_) ?_
      · exact .bind_none .skipBlanks fun _ => .pure x
      · intro x m hx hm
        exact .bind_pure_behind hm fun _ => hx
    next => cases hnext

/-- A further layer around a reader that reads all quoted texts alike. -/
theorem expressionOver_readsAlike (hb : b.head? ≠ some '\x27')
    (h : ReadsAlike b Expr.Holds nested) : ReadsAlike b Expr.Holds (expressionOver nested) := by
  have hsteps : ReadsAlike b (HoldsOne Step.Holds) (steps nested) :=
    .chain rfl fun c item => furtherStep_readsAlike hb h
  refine .bind_none .skipBlanks fun _ => (call_readsAlike hb h).bind (fun c => ?_) ?_
  · refine .bind_none .skipBlanks fun _ => ?_
    exact hsteps.bind_pure fun xs hxs => .of_steps c hxs
  · intro c m hc hm
    refine .bind_behind hm fun _ m' hm' => ?_
    exact .bind_pure_behind hm' fun xs => .of_call hc xs

end

/-- By induction on the limit, every expression reads all quoted texts alike. -/
theorem expression_readsAlike {b : Text} (hb : b.head? ≠ some '\x27') (limit : Nat) :
    ReadsAlike b Expr.Holds (expression limit) := by
  induction limit with
  | zero => exact .fail .maxDepthExceeded
  | succ limit ih => exact expressionOver_readsAlike hb ih

theorem enclosed_readsAlike {b : Text} (hb : b.head? ≠ some '\x27') (limit : Nat) :
    ReadsAlike b Expr.Holds (enclosed limit) := by
  refine (expression_readsAlike hb limit).bind (fun e => .bind_none .skipBlanks fun _ => ?_) ?_
  · -- The closing bracket would be followed by the quotes at least.
    intro u hu
    cases u with
    | nil => exact ReadsAlike.fail .trailingCharacters [] hu
    | cons c u =>
      by_cases hc : c = ']'
      · subst hc
        have hu' : Text.ClosesQuotes u := hu.of_append (w := [']']) (by decide)
        refine (ReadsAlike.fail .trailingCharacters u hu').congr fun v => ?_
        cases u <;> rfl
      · refine (ReadsAlike.fail .trailingCharacters (c :: u) hu).congr fun v => ?_
        rw [lex_current, bind_read_of_done (current_read _)]
        simp [hc]
  · intro e m he hm
    refine .bind_behind hm fun _ m' hm' => .bind_behind hm' fun c? m'' hm'' => ?_
    cases c? with
    | none => exact .fail_behind hm'' _
    | some c =>
      dsimp only
      split
      · refine .bind_behind hm'' fun _ n hn => .bind_behind hn fun d? n' hn' => ?_
        cases d? with
        | none => exact .pure he hn'
        | some d => exact .fail_behind hn' _
      · exact .fail_behind hm'' _

/-- A fault in front of the last part of a text lies in the part before. -/
theorem exists_append_of_failed {r : Reader α} {u u' t rest : Text} {kind : FaultKind}
    {found : Option Text} (h : r (u ++ t) = .failed ⟨kind, u' ++ t, found⟩ rest) :
    ∃ w, u = w ++ u' := by
  have hwithin := r.within (u ++ t)
  rw [h] at hwithin
  obtain ⟨w, hw⟩ := hwithin.2
  rw [← List.append_assoc] at hw
  exact ⟨w, (List.append_cancel_right hw).symm⟩

end Reader

/-! ## Classification -/

/-- The text `v` in quotes, as canonical texts have it. -/
def Quoted.text (v : String) : String :=
  String.ofList (encode v.toList)

/-- A quoted text fits between `a` and `b`: the value is an expression, and the quotes around the
text are quotes of their own, which neither close a text of `a` nor merge with a quote beside
them. -/
structure SurroundsQuoted (a b : String) : Prop where
  opens : a.toList[0]? = some '['
  unescaped : a.toList[1]? ≠ some '['
  even : Even (a.toList.count '\x27')
  last : a.toList.getLast? ≠ some '\x27'
  first : b.toList.head? ≠ some '\x27'

/-- The text in front of the quotes starts with one opening bracket, which is no escape, and closes
the quotes it opens. -/
theorem SurroundsQuoted.exists_tail {a b : String} (h : SurroundsQuoted a b) :
    ∃ u : Text, a.toList = '[' :: u ∧ u.ClosesQuotes ∧ ∀ v : String,
      (a ++ Quoted.text v ++ b).toList = '[' :: (u ++ Quoted.inFrontOf b.toList v) ∧
        (u ++ Quoted.inFrontOf b.toList v).head? ≠ some '[' := by
  obtain ⟨u, hu⟩ : ∃ u, a.toList = '[' :: u := by
    refine List.head?_eq_some_iff.1 ?_
    rw [List.head?_eq_getElem?]
    exact h.opens
  obtain ⟨-, hescape, heven, hlast, -⟩ := h
  rw [hu] at hescape heven hlast
  have hcloses : Text.ClosesQuotes u :=
    Text.ClosesQuotes.of_append (w := ['[']) ⟨heven, hlast⟩ (by decide)
  refine ⟨u, hu, hcloses, fun v => ⟨?_, ?_⟩⟩
  · simp [hu, Quoted.text, Quoted.inFrontOf]
  · cases u with
    | nil => simp [Quoted.inFrontOf, Quoted.encode]
    | cons c u => simpa using hescape

/-- A quoted text between `a` and `b` becomes one leaf of the tree, whatever it says, or
classification fails in the same way for every quoted text: at one offset at or before the quotes,
or at one distance behind them. -/
theorem classify_quoted_between {a b : String} (h : SurroundsQuoted a b) (limit : Nat) :
    (∃ place : Expr.Place, ∀ v : String,
      classify limit (a ++ Quoted.text v ++ b) = .ok (.expression (place.fill v))) ∨
    (∃ d : Diagnostic, d.offset ≤ a.utf8ByteSize ∧ ∀ v : String,
      classify limit (a ++ Quoted.text v ++ b) = .error d) ∨
    ∃ d : Diagnostic, ∀ v : String, classify limit (a ++ Quoted.text v ++ b) =
      .error { d with offset := a.utf8ByteSize + (Quoted.text v).utf8ByteSize + d.offset } := by
  obtain ⟨u, hu, hcloses, hinput⟩ := h.exists_tail
  have hsize : a.utf8ByteSize = 1 + Text.byteLength u := by
    rw [← String.ofList_toList (s := a), hu, ← Text.byteLength_eq_utf8ByteSize]
    rfl
  cases Reader.enclosed_readsAlike h.first limit u hcloses with
  | doneBefore e u' hu' hread =>
    -- An enclosed expression ends with the text.
    obtain ⟨t, ht⟩ := Quoted.inFrontOf_eq_cons b.toList ""
    have hnil := (Reader.enclosed_eq_done.1 (hread "")).1
    rw [ht] at hnil
    exact absurd hnil (by simp)
  | doneBehind e rest he hrest hread =>
    obtain ⟨place, rfl⟩ := he
    refine .inl ⟨place, fun v => ?_⟩
    exact classify_eq_expression.2 ⟨_, rest, (hinput v).1, (hinput v).2, hread v⟩
  | failedBefore kind found u' rest hread =>
    obtain ⟨w, rfl⟩ := Reader.exists_append_of_failed (hread "")
    refine .inr (.inl ⟨⟨kind, 1 + Text.byteLength w, found.map String.ofList⟩, ?_, fun v => ?_⟩)
    · rw [Text.byteLength_append] at hsize
      show 1 + Text.byteLength w ≤ a.utf8ByteSize
      omega
    · rw [classify_of_enclosed_eq_failed (hinput v).1 (hinput v).2 (hread v), List.append_assoc]
      exact congrArg Except.error (Cursor.diagnose_append ['['] w _)
  | failedBehind fault rest hrest hread =>
    obtain ⟨k, hk⟩ := hrest
    refine .inr (.inr ⟨⟨fault.kind, Text.byteLength k, fault.found.map String.ofList⟩, fun v => ?_⟩)
    have hsplit : u ++ Quoted.inFrontOf b.toList v =
        (u ++ (Quoted.encode v.toList ++ k)) ++ fault.rest := by
      simp [Quoted.inFrontOf, ← hk]
    rw [classify_of_enclosed_eq_failed (hinput v).1 (hinput v).2 (hread v), hsplit,
      Cursor.diagnose_append, hsize, Quoted.text, ← Text.byteLength_eq_utf8ByteSize]
    simp only [List.singleton_append, Text.byteLength_cons, Text.byteLength_append, Nat.add_assoc]
    rfl

/-- An argument between a quoted text and an index. -/
theorem classify_quoted_between_arguments :
    SurroundsQuoted "[f('it''s', " ")[1]]" ∧ ∃ place : Expr.Place, ∀ v : String,
      classify 1 ("[f('it''s', " ++ Quoted.text v ++ ")[1]]") =
        .ok (.expression (place.fill v)) := by
  have h : SurroundsQuoted "[f('it''s', " ")[1]]" :=
    ⟨by decide +kernel, by decide +kernel, by decide +kernel, by decide +kernel, by decide +kernel⟩
  have hok : (classify 1 ("[f('it''s', " ++ Quoted.text "" ++ ")[1]]")).toBool = true := by
    decide +kernel
  refine ⟨h, ?_⟩
  -- For the empty text there is no error, so there is none for any text.
  rcases classify_quoted_between h 1 with hread | ⟨d, -, hread⟩ | ⟨d, hread⟩
  · exact hread
  · rw [hread ""] at hok
    cases hok
  · rw [hread ""] at hok
    cases hok

end BracketExpr
