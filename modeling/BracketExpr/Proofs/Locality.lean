import BracketExpr.Proofs.ByteReading
import BracketExpr.Proofs.Completeness

/-!
# An expression is read where it stands

What is read as an expression is read as the same expression elsewhere: behind any other text, and
in front of every text that does not go on with a character by which the expression might go on.
A fault is found elsewhere too, at a distance from the start of the reading that stays the same,
as long as the text from there on is the same. This is so although an expression is read at a byte
offset of the whole input: what is read there is what is read at a cursor.
-/

namespace BracketExpr

/-- The characters by which an expression that has been read might go on: a blank, the start of a
step, or a character of a member name. -/
def mayContinue (c : Char) : Bool :=
  isBlank c || c == '.' || c == '[' || isMemberChar c

/-! ## Behind an expression -/

namespace Text

variable {w s : Text}

/-- A text that may not continue an expression does not start with a blank. -/
theorem startsOutside_isBlank_of_mayContinue (h : s.StartsOutside mayContinue) :
    s.StartsOutside isBlank :=
  h.mono fun c hc => by simp [mayContinue, hc]

/-- An expression ends in front of blanks and a text by which it does not go on. -/
theorem endsSteps_blank_append (hw : w.IsBlank) (h : s.StartsOutside mayContinue) :
    EndsSteps (w ++ s) := by
  constructor
  · refine .blank_append hw (fun c => isMemberChar_eq_false_of_isBlank) (h.mono fun c hc => ?_)
    simp [mayContinue, hc]
  · rw [skipBlanks_append hw, skipBlanks_of_outside (startsOutside_isBlank_of_mayContinue h)]
    refine h.mono fun c hc => ?_
    rcases Bool.or_eq_true_iff.1 hc with hc | hc <;> simp [mayContinue, hc]

end Text

/-- What stands behind an expression has no part in its reading, once nothing there could belong to
the expression. -/
theorem Reader.expression_append_of_mayContinue {limit : Nat} {x y y' : Text} {e : Expr}
    (h : expression limit (x ++ y) = .done e y) (hy' : y'.StartsOutside mayContinue) :
    expression limit (x ++ y') = .done e y' := by
  obtain ⟨w₁, t, w₂, hx, hw₁, hw₂, ht⟩ := expression_sound limit _ e y h
  obtain rfl : x = w₁ ++ (t ++ w₂) := by
    refine List.append_cancel_right (hx.trans ?_)
    simp
  have hread := expression_complete limit t e (w₂ ++ y') ht (Text.endsSteps_blank_append hw₂ hy')
  have hskip : Text.skipBlanks (w₂ ++ y') = y' := by
    rw [Text.skipBlanks_append hw₂,
      Text.skipBlanks_of_outside (Text.startsOutside_isBlank_of_mayContinue hy')]
  cases limit with
  | zero => cases h
  | succ limit =>
    rw [List.append_assoc, List.append_assoc, expression_blank_append hw₁, hread, hskip]

/-! ## At a cursor -/

namespace Entry

/-- What the reading of an expression at a cursor yields tells the result of its reader. -/
theorem run_expression_eq_ofResult {limit : Nat} {c c' : Cursor}
    {result : Except Diagnostic Expr} :
    expression.run limit c = (.ofResult .expression result, c') ↔
      c.run (Reader.expression limit) = (result, c') := by
  rw [(run_eq_ofResult limit c).1]
  obtain ⟨found, c''⟩ := c.run (Reader.expression limit)
  cases found <;> cases result <;> simp [Yield.ofResult]

/-- The reading of an expression is local. If exactly the text `x` is read behind `w`, it is read
behind every text with the same result, in front of every text by which no expression goes on. If
the reading of `z` fails behind `w`, it fails behind every text with the same kind of fault and the
same offending text, at an offset and with a final position that are moved by as many bytes as the
start. What is said of cursors here holds at their byte offsets in the whole input. -/
theorem run_expression_local (limit : Nat) (w : Text) :
    (∀ x y e c, expression.run limit ⟨w, x ++ y⟩ = (.expression e, c) →
      c.position = Text.byteLength w + Text.byteLength x →
      ∀ w' y' : Text, y'.StartsOutside mayContinue →
        expression.run limit ⟨w', x ++ y'⟩ = (.expression e, ⟨w' ++ x, y'⟩)) ∧
    (∀ z d c, expression.run limit ⟨w, z⟩ = (.diagnostic d, c) →
      ∀ w' : Text, ∃ d' c', expression.run limit ⟨w', z⟩ = (.diagnostic d', c') ∧
        d'.kind = d.kind ∧ d'.found = d.found ∧
        d'.offset + Text.byteLength w = d.offset + Text.byteLength w' ∧
        c'.position + Text.byteLength w = c.position + Text.byteLength w') ∧
    ∀ c : Cursor, expression.run? limit c.bytes =
      some ((expression.run limit c).1, (expression.run limit c).2.bytes) := by
  refine ⟨?_, ?_, fun c => run?_bytes limit c expression⟩
  · intro x y e c h hposition w' y' hy'
    have hinput := (expression.run_moves limit ⟨w, x ++ y⟩).input_eq
    rw [h] at hinput
    -- In the input there is only one cursor behind `x`.
    obtain rfl : c = ⟨w ++ x, y⟩ := by
      refine Cursor.eq_of_position_eq (hinput.trans ?_) (hposition.trans ?_)
      · exact (List.append_assoc w x y).symm
      · exact (Text.byteLength_append w x).symm
    have hread := Cursor.read_of_run_eq_ok (run_expression_eq_ofResult.1 h)
    have hread' := Reader.expression_append_of_mayContinue hread hy'
    exact run_expression_eq_ofResult.2 (Cursor.run_append_of_done hread' w')
  · intro z d c h w'
    obtain ⟨fault, rest, hread, rfl, rfl⟩ :=
      Cursor.read_of_run_eq_error (run_expression_eq_ofResult.1 h)
    have hrun : (Cursor.mk w' z).run (Reader.expression limit) = _ := Cursor.run_of_failed hread
    refine ⟨_, _, run_expression_eq_ofResult.2 hrun, rfl, rfl, ?_, ?_⟩
    · exact Cursor.position_moveTo_add w w' z fault.rest
    · exact Cursor.position_moveTo_add w w' z rest

/-- An expression with blanks behind it that is read in front of a parenthesis and in front of a
quote, and a quoted text that is left open behind texts of different length. -/
theorem run_expression_local_quoted :
    (expression.run 1 ⟨['('], "f(1)['é'] ".toList ++ [')']⟩ =
        (.expression ⟨⟨"f", [.num 1]⟩, [.index (.property "é")]⟩,
          ⟨'(' :: "f(1)['é'] ".toList, [')']⟩) ∧
      Cursor.position ⟨'(' :: "f(1)['é'] ".toList, [')']⟩ =
        Text.byteLength ['('] + Text.byteLength "f(1)['é'] ".toList ∧
      Text.StartsOutside mayContinue "'.x".toList ∧
      expression.run 1 ⟨"é, ".toList, "f(1)['é'] ".toList ++ "'.x".toList⟩ =
        (.expression ⟨⟨"f", [.num 1]⟩, [.index (.property "é")]⟩,
          ⟨"é, ".toList ++ "f(1)['é'] ".toList, "'.x".toList⟩)) ∧
    expression.run 1 ⟨['('], "f('é".toList⟩ =
      (.diagnostic ⟨.unterminatedString, 3, some "'é"⟩, ⟨"(f('é".toList, []⟩) ∧
    (∃ d c, expression.run 1 ⟨"é, ".toList, "f('é".toList⟩ = (.diagnostic d, c) ∧
      d.kind = .unterminatedString ∧ d.found = some "'é" ∧ d.offset + 1 = 3 + 4 ∧
      c.position + 1 = 6 + 4) ∧
    expression.run? 1 ⟨"(f('é".toList, 1⟩ =
      some (.diagnostic ⟨.unterminatedString, 3, some "'é"⟩, ⟨"(f('é".toList, 6⟩) := by
  obtain ⟨hdone, hfailed, hbytes⟩ := run_expression_local 1 ['(']
  have hread : expression.run 1 ⟨['('], "f(1)['é'] ".toList ++ [')']⟩ =
      (.expression ⟨⟨"f", [.num 1]⟩, [.index (.property "é")]⟩,
        ⟨'(' :: "f(1)['é'] ".toList, [')']⟩) := by decide +kernel
  have hmiss : expression.run 1 ⟨['('], "f('é".toList⟩ =
      (.diagnostic ⟨.unterminatedString, 3, some "'é"⟩, ⟨"(f('é".toList, []⟩) := by decide +kernel
  refine ⟨⟨hread, by decide +kernel, rfl, ?_⟩, hmiss, ?_, ?_⟩
  · exact hdone _ _ _ _ hread (by decide +kernel) _ _ rfl
  · exact hfailed _ _ _ hmiss "é, ".toList
  · have hrun := hbytes ⟨['('], "f('é".toList⟩
    rw [hmiss] at hrun
    exact hrun.trans (by decide +kernel)

end Entry

end BracketExpr
