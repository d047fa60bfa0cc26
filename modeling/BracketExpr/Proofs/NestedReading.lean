import BracketExpr.Proofs.FaultPlace
import BracketExpr.Proofs.Soundness
import Mathlib.Logic.Function.Iterate

/-!
# What a production asks the reader of nested expressions

The productions of an expression are built around a reader of nested expressions. On a given text
they either never run it, or they run it first at a certain point, and what it reads there decides
how they go on. Said once for every production, this is all that is needed to compare the readers of
expressions under different limits: the text from every point at which a nested expression is read
is at least two characters shorter, by the name and the parenthesis of the call around it.
-/

namespace BracketExpr

variable {α β : Type}

namespace Reading

/-- The reading was not stopped by the nesting limit. -/
def KeepsLimit : Reading α → Prop
  | done _ _ => True
  | failed fault _ => fault.kind ≠ .maxDepthExceeded

end Reading

namespace Reader

open Production

/-- A reader leaves no more text than it was given. -/
theorem length_le_of_done {r : Reader α} {s rest : Text} {a : α} (h : r s = .done a rest) :
    rest.length ≤ s.length := by
  have hwithin := r.within s
  rw [h] at hwithin
  exact List.IsSuffix.length_le hwithin

/-- On the text `s`, the reader `r` never runs the reader it is built around, or it runs it first at
a point from which at most `n` characters are left, and goes on likewise with what that reads. -/
inductive Consults (n : Int) : (Reader Expr → Reader α) → Text → Prop where
  | never {r : Reader Expr → Reader α} {s : Text} {x : Reading α}
    (h : ∀ nested, r nested s = x) (hkeeps : x.KeepsLimit) : Consults n r s
  | first {r : Reader Expr → Reader α} {s p : Text} {f : Reader Expr → Expr → Reader α}
    (h : ∀ nested, r nested s = (nested >>= f nested) p) (hp : p.length ≤ n)
    (hf : ∀ e mid, mid.length ≤ p.length → Consults n (fun nested => f nested e) mid) :
    Consults n r s

namespace Consults

variable {n m : Int} {s : Text}

theorem mono {r : Reader Expr → Reader α} (h : Consults n r s) (hnm : n ≤ m) : Consults m r s := by
  induction h with
  | never h hkeeps => exact .never h hkeeps
  | first h hp hf ih => exact .first h (Int.le_trans hp hnm) ih

/-- Only what the reader does on the text in hand counts, whatever is nested in it. -/
theorem congr {r r' : Reader Expr → Reader α} {s' : Text} (h : Consults n r' s')
    (heq : ∀ nested, r nested s = r' nested s') : Consults n r s := by
  cases h with
  | never h hkeeps => exact .never (fun nested => (heq nested).trans (h nested)) hkeeps
  | first h hp hf => exact .first (fun nested => (heq nested).trans (h nested)) hp hf

/-- A reader that is not built around another one never runs it. -/
theorem const {r : Reader α} (h : FaultsAt (fun fault => fault.kind ≠ .maxDepthExceeded) r s) :
    Consults n (fun _ => r) s := by
  refine .never (fun _ => rfl) ?_
  cases hr : r s with
  | done a rest => trivial
  | failed fault rest => exact h fault rest hr

theorem pure (a : α) : Consults n (fun _ => Pure.pure a) s :=
  const (.pure a s)

/-- A failure that is not the limit's own never runs a nested reader. -/
theorem fail {kind : FaultKind} (h : kind ≠ .maxDepthExceeded) :
    Consults n (fun _ => (Reader.fail kind : Reader α)) s :=
  const (.fail h)

/-- Two readers in a row consult what each of them consults, if the first leaves little enough
text. -/
theorem bind {r : Reader Expr → Reader α} {f : Reader Expr → α → Reader β} (h : Consults n r s)
    (hs : ∀ nested a mid, r nested s = .done a mid → mid.length ≤ n)
    (hf : ∀ a mid, mid.length ≤ n → Consults n (fun nested => f nested a) mid) :
    Consults n (fun nested => r nested >>= f nested) s := by
  induction h with
  | @never r s x h hkeeps =>
    cases x with
    | done a mid =>
      -- Any reader can stand for the one that is never run.
      have hmid := hs (Reader.fail .maxDepthExceeded) a mid (h _)
      exact (hf a mid hmid).congr fun nested => bind_read_of_done (h nested) _
    | failed fault rest =>
      exact .never (fun nested => bind_read_of_failed (h nested) _) hkeeps
  | @first r s p g h hp hg ih =>
    refine .first (f := fun nested e => g nested e >>= f nested) ?_ hp fun e mid hmid => ?_
    · intro nested
      rw [bind_read, h nested, ← bind_read]
      exact bind_bind_read nested _ _ p
    · refine ih e mid hmid fun nested a mid' hdone => ?_
      have hle := length_le_of_done hdone
      omega

/-- In a sequence that is read from `s`, no part is left more than `s`. -/
theorem seq {r : Reader Expr → Reader α} {f : Reader Expr → α → Reader β}
    (h : Consults s.length r s)
    (hf : ∀ a mid, mid.length ≤ s.length → Consults mid.length (fun nested => f nested a) mid) :
    Consults s.length (fun nested => r nested >>= f nested) s :=
  h.bind (fun _ _ _ hdone => Int.ofNat_le.2 (length_le_of_done hdone)) fun a mid hmid =>
    (hf a mid (Int.ofNat_le.1 hmid)).mono hmid

/-- A first part that is not built around another reader. -/
theorem bind_const {r : Reader α} {f : Reader Expr → α → Reader β}
    (h : FaultsAt (fun fault => fault.kind ≠ .maxDepthExceeded) r s)
    (hf : ∀ a mid, r s = .done a mid → Consults n (fun nested => f nested a) mid) :
    Consults n (fun nested => r >>= f nested) s := by
  cases hr : r s with
  | done a mid => exact (hf a mid hr).congr fun nested => bind_read_of_done hr _
  | failed fault rest =>
    exact .never (fun nested => bind_read_of_failed hr _) (h fault rest hr)

/-- A first reader that is not built around another one only moves the place where the rest
starts. -/
theorem bind_done {r : Reader α} {f : Reader Expr → α → Reader β} {a : α} {mid : Text}
    (h : r s = .done a mid) (hf : Consults n (fun nested => f nested a) mid) :
    Consults n (fun nested => r >>= f nested) s :=
  hf.congr fun _ => bind_read_of_done h _

/-- Running the nested reader and wrapping what it reads consults it once, at the text in hand. -/
theorem nested_bind_pure (g : Expr → α) :
    Consults s.length (fun nested => nested >>= fun e => Pure.pure (g e)) s :=
  .first (fun _ => rfl) (Int.le_refl _) fun e _ _ => .pure (g e)

end Consults

/-- An item of a chain that is built around another reader: the opening characters are always the
same, and so is what is asked. -/
def ItemConsults (next : Reader Expr → Char → Option (Reader α)) : Prop :=
  ∀ c, (∀ nested, next nested c = none) ∨ ∃ item : Reader Expr → Reader α,
    (∀ nested, next nested c = some (item nested)) ∧ ∀ s : Text, Consults s.length item s

/-- A chain consults what its items consult: each item starts later than the one before. -/
theorem chain_consults {next : Reader Expr → Char → Option (Reader α)} (hnext : ItemConsults next)
    (s : Text) : Consults s.length (fun nested => chain (next nested)) s := by
  induction s using Text.induction_by_length with
  | nil =>
    refine .never (x := .done [] []) (fun nested => ?_) trivial
    exact chainFrom_of_stop (by simp)
  | cons c s ih =>
    rcases hnext c with hnone | ⟨item, hsome, hitem⟩
    · refine .never (x := .done [] (c :: s)) (fun nested => ?_) trivial
      refine chainFrom_of_stop fun d hd => ?_
      obtain rfl := Option.some.inj hd
      exact hnone nested
    · have hrest : Consults s.length (fun nested => do
          let a ← item nested
          let as ← chain (next nested)
          return a :: as) s := by
        refine (hitem s).seq fun a mid hmid => ?_
        exact (ih mid hmid).seq fun as rest _ => .pure _
      refine (hrest.congr fun nested => ?_).mono (Int.ofNat_le.2 (Nat.le_succ _))
      exact chainFrom_cons_of_some (hsome nested) s

/-! ## Productions -/

/-- Looking for one character never reports the limit, unless told to. -/
theorem expect_keepsLimit {kind : FaultKind} (h : kind ≠ .maxDepthExceeded) (c : Char) (s : Text) :
    FaultsAt (fun fault => fault.kind ≠ .maxDepthExceeded) (expect c kind) s := by
  intro fault rest hfail
  obtain rfl := expect_eq_failed hfail
  exact h

theorem number_keepsLimit (s : Text) :
    FaultsAt (fun fault => fault.kind ≠ .maxDepthExceeded) number s := by
  intro fault rest hfail
  obtain rfl := number_eq_failed hfail
  simp

theorem quoted_keepsLimit (s : Text) :
    FaultsAt (fun fault => fault.kind ≠ .maxDepthExceeded) quoted ('\x27' :: s) := by
  intro fault rest hfail
  obtain rfl := quoted_eq_failed hfail
  simp

theorem calleeName_keepsLimit (s : Text) :
    FaultsAt (fun fault => fault.kind ≠ .maxDepthExceeded) calleeName s := by
  intro fault rest hfail
  rcases calleeName_eq_failed hfail with ⟨-, rfl⟩ | ⟨-, rfl⟩ <;> simp [Fault.atStart]

/-- An argument runs the nested reader, if at all, on the text it starts at. -/
theorem argument_consults (s : Text) : Consults s.length argument s := by
  refine .bind_done (current_read s) ?_
  cases s with
  | nil => exact .fail (by decide)
  | cons c s =>
    dsimp only [List.head?_cons]
    by_cases hnumber : startsNumber c
    · simp only [if_pos hnumber]
      exact .const (number_keepsLimit _).bind_pure
    · simp only [if_neg hnumber]
      by_cases hquote : c = '\x27'
      · simp only [hquote]
        exact .const (quoted_keepsLimit s).bind_pure
      · simp only [if_neg hquote]
        refine .bind_done (atCall_read _) ?_
        by_cases hcall : isCallAt (c :: s)
        · simp only [if_pos hcall]
          exact .nested_bind_pure Argument.expr
        · simp only [if_neg hcall]
          refine .bind_const (.boolean _) fun b? mid _ => ?_
          cases b? with
          | none => exact .fail (by decide)
          | some b => exact .pure _

theorem furtherArgument_consults : ItemConsults furtherArgument := by
  intro c
  by_cases hc : c = ','
  · refine .inr ⟨_, fun nested => if_pos hc, fun s => ?_⟩
    refine .bind_done (skipBlanks_read s) ?_
    refine Consults.mono (.seq (argument_consults _) fun a mid _ => ?_)
      (Int.ofNat_le.2 (length_le_of_done (skipBlanks_read s)))
    exact .bind_done (skipBlanks_read mid) (.pure a)
  · exact .inl fun nested => if_neg hc

/-- Between its parentheses a call consults the nested reader only behind what was already read. -/
theorem argumentList_consults (s : Text) : Consults s.length argumentList s := by
  refine .bind_done (current_read s) ?_
  cases s with
  | nil => exact .pure []
  | cons c s =>
    dsimp only [List.head?_cons]
    by_cases hclose : c = ')'
    · simp only [if_pos hclose]
      exact .pure []
    · simp only [if_neg hclose]
      refine .seq (argument_consults _) fun a mid _ => .bind_done (skipBlanks_read mid) ?_
      refine Consults.mono
        (.seq (chain_consults furtherArgument_consults _) fun as rest _ => .pure _)
        (Int.ofNat_le.2 (length_le_of_done (skipBlanks_read mid)))

/-- What a call leaves is shorter by its name and its parenthesis at least. -/
theorem length_add_two_le_of_opening {s s₁ s₂ : Text} {name : String} {u : Unit}
    (hname : calleeName (m := Reader) s = .done name s₁)
    (hopen : expect (m := Reader) '(' .expectedOpenParen s₁.skipBlanks = .done u s₂) :
    s₂.length + 2 ≤ s.length := by
  obtain ⟨hfunction, rfl⟩ := functionName_eq_some (calleeName_eq_done hname)
  have hpos : 0 < name.toList.length := List.length_pos_iff.2 hfunction.ne_nil
  have hskip := length_le_of_done (skipBlanks_read s₁)
  rw [expect_eq_done.1 hopen, List.length_cons] at hskip
  rw [List.length_append]
  omega

/-- A call spends two characters, a name and a parenthesis, before anything nested in it starts. -/
theorem call_consults (s : Text) : Consults (s.length - 2) call s := by
  refine .bind_const (calleeName_keepsLimit s) fun name s₁ hname => ?_
  refine .bind_done (skipBlanks_read s₁) ?_
  refine .bind_const (expect_keepsLimit (by decide) _ _) fun _ s₂ hopen => ?_
  have hlength := length_add_two_le_of_opening hname hopen
  refine .bind_done (skipBlanks_read s₂) ?_
  have hskip := length_le_of_done (skipBlanks_read s₂)
  refine Consults.mono (.seq (argumentList_consults _) fun args s₃ _ => ?_) (by omega)
  refine .bind_done (skipBlanks_read s₃) ?_
  exact .const (expect_keepsLimit (by decide) ')' _).bind_pure

theorem index_consults (s : Text) : Consults s.length index s := by
  refine .bind_done (current_read s) ?_
  cases s with
  | nil => exact .fail (by decide)
  | cons c s =>
    dsimp only [List.head?_cons]
    refine .bind_done (atCall_read _) ?_
    by_cases hcall : isCallAt (c :: s)
    · simp only [if_pos hcall]
      exact .nested_bind_pure Index.expr
    · simp only [if_neg hcall]
      by_cases hnumber : startsNumber c
      · simp only [if_pos hnumber]
        exact .const (number_keepsLimit _).bind_pure
      · simp only [if_neg hnumber]
        by_cases hquote : c = '\x27'
        · simp only [hquote]
          exact .const (quoted_keepsLimit s).bind_pure
        · simp only [if_neg hquote]
          exact .fail (by decide)

theorem memberStep_keepsLimit (s : Text) :
    FaultsAt (fun fault => fault.kind ≠ .maxDepthExceeded) memberStep s := by
  refine .bind_of_done (skipBlanks_read s) (.bind (.lexeme memberNameAt _) fun name? mid _ => ?_)
  cases name? with
  | none => exact .fail (by simp [Fault.atStart])
  | some name => exact .pure _ mid

theorem indexStep_consults (s : Text) : Consults s.length indexStep s := by
  refine .bind_done (skipBlanks_read s) ?_
  refine Consults.mono (.seq (index_consults _) fun i mid _ => ?_)
    (Int.ofNat_le.2 (length_le_of_done (skipBlanks_read s)))
  refine .bind_done (skipBlanks_read mid) ?_
  exact .const (expect_keepsLimit (by decide) ']' _).bind_pure

theorem furtherStep_consults : ItemConsults furtherStep := by
  intro c
  by_cases hpoint : c = '.'
  · refine .inr ⟨_, fun nested => if_pos hpoint, fun s => .const ?_⟩
    refine (memberStep_keepsLimit s).bind fun x mid _ => ?_
    exact .bind_of_done (skipBlanks_read mid) (.pure x _)
  · by_cases hbracket : c = '['
    · refine .inr ⟨_, fun nested => (if_neg hpoint).trans (if_pos hbracket), fun s => ?_⟩
      exact (indexStep_consults s).seq fun x mid _ => .bind_done (skipBlanks_read mid) (.pure x)
    · exact .inl fun nested => (if_neg hpoint).trans (if_neg hbracket)

/-! ## Expressions -/

/-- Under a limit, an expression is that many levels of nesting around the refusal of one more. -/
theorem expression_eq_iterate (limit : Nat) :
    expression limit = expressionOver^[limit] (fail .maxDepthExceeded) := by
  induction limit with
  | zero => rfl
  | succ limit ih => rw [expression_succ, Function.iterate_succ_apply', ih]

/-- One level of nesting leaves at least two characters less to the next, which is why half the
length bounds the depth. -/
theorem expressionOver_consults (s : Text) : Consults (s.length - 2) expressionOver s := by
  refine .bind_done (skipBlanks_read s) ?_
  have hskip := length_le_of_done (skipBlanks_read s)
  refine Consults.bind ((call_consults _).mono (by omega)) (fun nested c s₁ hcall => ?_) ?_
  · -- What the rest of a call leaves lies behind its parenthesis.
    obtain ⟨name, s₂, hname, hcall⟩ := bind_eq_done.1 hcall
    rw [lex_skipBlanks, bind_read_of_done (skipBlanks_read s₂)] at hcall
    obtain ⟨_, s₃, hopen, hcall⟩ := bind_eq_done.1 hcall
    have hlength := length_add_two_le_of_opening hname hopen
    have hle := length_le_of_done hcall
    omega
  · intro c s₁ hs₁
    refine .bind_done (skipBlanks_read s₁) ?_
    have hskip₁ := length_le_of_done (skipBlanks_read s₁)
    refine Consults.mono (.seq (chain_consults furtherStep_consults _) fun xs mid _ => .pure _) ?_
    omega

end Reader

end BracketExpr
