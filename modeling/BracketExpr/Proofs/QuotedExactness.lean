import BracketExpr.Proofs.CursorReading
import BracketExpr.Proofs.LexemeEnd
import BracketExpr.Proofs.RoundTrip

/-!
# Quoted texts are read exactly

The reader of quoted texts and their written form are inverse to each other, also as to where the
reading stops. A text that stands between quotes has one written form only; the reader takes a
written form whole if no further quote follows it, and it takes nothing else. A quote that follows
would double the closing one, so runs of quotes of any length are decided by what they leave.
-/

namespace BracketExpr

namespace Quoted

/-- The body of a quoted text is the written form of what it stands for. -/
theorem eq_double_of_isQuotedBody {b v : Text} (h : IsQuotedBody b v) : b = double v := by
  induction h with
  | nil => rfl
  | char hc _ ih => rw [double, if_neg hc, ← ih]
  | quote _ ih => rw [double, if_pos rfl, ← ih]

/-- A text has one quoted form: every quote of it doubled, between two single ones. -/
theorem isQuoted_iff_eq_encode {w v : Text} : IsQuoted w v ↔ w = encode v := by
  constructor
  · rintro ⟨b, rfl, hb⟩
    rw [encode, eq_double_of_isQuotedBody hb]
  · rintro rfl
    exact isQuoted_encode v

end Quoted

namespace Reader

/-- What is read as a quoted text is the written form of its value, in front of no quote. -/
theorem quoted_eq_done_iff {s rest : Text} {v : String} :
    quoted s = .done v rest ↔
      s = Quoted.encode v.toList ++ rest ∧ rest.head? ≠ some '\x27' := by
  constructor
  · intro h
    obtain ⟨w, rfl, hw⟩ := quoted_eq_done h
    exact ⟨by rw [Quoted.isQuoted_iff_eq_encode.1 hw], head?_of_quoted h⟩
  · rintro ⟨rfl, hquote⟩
    exact quoted_append (Quoted.isQuoted_encode v.toList) hquote

/-- A text that starts with a quote and is not read as a quoted text is an open one. -/
theorem quoted_of_not_done {s : Text} (h : s.head? = some '\x27')
    (hopen : ∀ v rest, quoted s ≠ .done v rest) :
    quoted s = .failed ⟨.unterminatedString, s, some s⟩ [] := by
  obtain ⟨s, rfl⟩ := List.head?_eq_some_iff.1 h
  cases hbody : Quoted.body s with
  | some p =>
    refine absurd ?_ (hopen (String.ofList p.1) p.2)
    simp only [quoted, hbody]
  | none => simp only [quoted, hbody]

end Reader

/-! ## At a cursor -/

namespace Cursor

/-- From the cursor `c` up to the cursor `c'` of the same input stands the text `v` in its written
form, and no quote follows it. -/
structure QuotedBetween (c c' : Cursor) (v : String) : Prop where
  input_eq : c'.input = c.input
  consumed_eq : c'.consumed = c.consumed ++ Quoted.encode v.toList
  current_ne : c'.current ≠ some '\x27'

theorem QuotedBetween.rest_eq {c c' : Cursor} {v : String} (h : QuotedBetween c c' v) :
    c.rest = Quoted.encode v.toList ++ c'.rest := by
  have hinput := h.input_eq
  rw [input, h.consumed_eq, input, List.append_assoc] at hinput
  exact (List.append_cancel_left hinput).symm

/-- The reading of a quoted text from a cursor yields the texts that are written there, and it stops
where they end. -/
theorem run_quoted_eq_ok {c c' : Cursor} {v : String} :
    c.run Reader.quoted = (.ok v, c') ↔ QuotedBetween c c' v := by
  obtain ⟨w, s⟩ := c
  constructor
  · intro h
    have hread := read_of_run_eq_ok h
    obtain ⟨rfl, hquote⟩ := Reader.quoted_eq_done_iff.1 hread
    have hinput := input_run ⟨w, Quoted.encode v.toList ++ c'.rest⟩ Reader.quoted
    rw [h] at hinput
    have hc := run_append_of_done hread w
    rw [h] at hc
    exact ⟨hinput, congrArg consumed (Prod.mk.inj hc).2, hquote⟩
  · intro h
    obtain rfl : s = Quoted.encode v.toList ++ c'.rest := h.rest_eq
    have hread := Reader.quoted_eq_done_iff.2 ⟨h.rest_eq, h.current_ne⟩
    rw [run_append_of_done hread w, ← h.consumed_eq]

/-- Quoted texts are read exactly. From a cursor the text `v` is read up to the cursor `c'` if and
only if what stands between the two is the written form of `v` and no quote follows it. Where the
cursor does not stand at a quote, an argument is invalid and the cursor stays. In all other cases
the text is not closed: the fault is at the cursor, it shows all the text from there on, and the
cursor moves to the end of the input. -/
theorem run_quoted_exact (c : Cursor) :
    (∀ v c', c.run Reader.quoted = (.ok v, c') ↔ QuotedBetween c c' v) ∧
    (c.current ≠ some '\x27' → c.run Reader.quoted =
      (.error ⟨.invalidArgument, c.position, c.current.map fun ch => String.ofList [ch]⟩, c)) ∧
    (c.current = some '\x27' → (∀ v c', ¬ QuotedBetween c c' v) → c.run Reader.quoted =
      (.error ⟨.unterminatedString, c.position, some (String.ofList c.rest)⟩, ⟨c.input, []⟩)) := by
  refine ⟨fun v c' => run_quoted_eq_ok, fun hquote => ?_, fun hquote hnone => ?_⟩
  · have hread := Reader.quoted_of_head?_ne hquote
    rw [run_of_failed hread, diagnose_of_rest_eq rfl, moveTo_rest, current]
    cases c.rest <;> rfl
  · have hread : Reader.quoted c.rest = .failed ⟨.unterminatedString, c.rest, some c.rest⟩ [] := by
      refine Reader.quoted_of_not_done hquote fun v rest hdone => ?_
      exact hnone v _ (run_quoted_eq_ok.1 (run_of_done hdone))
    rw [run_of_failed hread, diagnose_of_rest_eq rfl]
    simp [moveTo, input]

/-- Runs of quotes behind a character of two bytes: three of them end a text that ends with a quote,
and two of them leave it open. -/
theorem run_quoted_exact_doubled :
    (Cursor.mk ['é'] "'it''s'''.x".toList).run Reader.quoted =
      (.ok "it's'", ⟨"é'it''s'''".toList, ['.', 'x']⟩) ∧
    (Cursor.current ⟨['é'], ['x', '\x27']⟩ ≠ some '\x27' ∧
      (Cursor.mk ['é'] ['x', '\x27']).run Reader.quoted =
        (.error ⟨.invalidArgument, 2, some "x"⟩, ⟨['é'], ['x', '\x27']⟩)) ∧
    Cursor.current ⟨['é'], "'it''".toList⟩ = some '\x27' ∧
      (∀ v c', ¬ QuotedBetween ⟨['é'], "'it''".toList⟩ c' v) ∧
      (Cursor.mk ['é'] "'it''".toList).run Reader.quoted =
        (.error ⟨.unterminatedString, 2, some "'it''"⟩, ⟨"é'it''".toList, []⟩) := by
  obtain ⟨hdone, -, -⟩ := run_quoted_exact ⟨['é'], "'it''s'''.x".toList⟩
  obtain ⟨-, hmiss, -⟩ := run_quoted_exact ⟨['é'], ['x', '\x27']⟩
  obtain ⟨hopen, -, hfailed⟩ := run_quoted_exact ⟨['é'], "'it''".toList⟩
  have hnone (v : String) (c' : Cursor) : ¬ QuotedBetween ⟨['é'], "'it''".toList⟩ c' v := by
    intro h
    have hrun : (Cursor.mk ['é'] "'it''".toList).run Reader.quoted =
        (.error ⟨.unterminatedString, 2, some "'it''"⟩, ⟨"é'it''".toList, []⟩) := by decide +kernel
    rw [(hopen v c').2 h] at hrun
    cases hrun
  refine ⟨(hdone _ _).2 ⟨?_, ?_, ?_⟩, ⟨?_, hmiss ?_⟩, ?_, hnone, hfailed ?_ hnone⟩
  all_goals decide +kernel

end Cursor

end BracketExpr
