import BracketExpr.Proofs.Requests

/-!
# Canonical text is a normal form

The text that `format` prints stands for the same statement as the text it was given, so no command
tells the two apart. This also holds through a pipe: the line feed that ends the printed text is
taken off again on standard input. Only a text that itself ends in a carriage return loses that
character there, since a carriage return and a line feed are one line break; such a text is a
literal.
-/

namespace BracketExpr

namespace Command

/-! ## Line breaks -/

/-- A line feed is taken off unless it is the second half of a line break. -/
theorem withoutLineBreak_append {s : Text} (h : s.getLast? ≠ some '\r') :
    withoutLineBreak (s ++ ['\n']) = s := by
  rw [← List.head?_reverse] at h
  have hr : (s ++ ['\n']).reverse = '\n' :: s.reverse := by simp
  rw [withoutLineBreak, hr]
  split
  next r heq =>
    rw [(List.cons.inj heq).2] at h
    exact absurd rfl h
  next r _ heq => rw [← (List.cons.inj heq).2, List.reverse_reverse]
  next _ hne => exact absurd rfl (hne s.reverse)

/-- A line that ends in a carriage return and a line feed loses both. -/
theorem withoutLineBreak_append_return (s : Text) :
    withoutLineBreak (s ++ ['\r', '\n']) = s := by
  simp [withoutLineBreak]

/-- A literal whose text ends in a carriage return is still classified without it, and an expression
never ends in one. -/
theorem classify_of_text_eq_append_return {limit : Nat} {statement : Statement} {u : String}
    (hwf : statement.WellFormed limit) (h : statement.text = u ++ "\r") :
    statement.isLiteral ∧ ∃ literal, classify limit u = .ok literal := by
  have hchars : statement.chars = u.toList ++ ['\r'] := by
    have htext := congrArg String.toList h
    rwa [Statement.text, String.toList_ofList, String.toList_append] at htext
  cases statement with
  | stringLiteral text =>
    refine ⟨rfl, .stringLiteral u, classify_eq_stringLiteral.2 ⟨rfl, fun hu => ?_⟩⟩
    obtain ⟨v, hv⟩ := List.head?_eq_some_iff.1 hu
    rw [Statement.chars, hv] at hchars
    exact hwf (by rw [hchars]; rfl)
  | escapedLiteral text =>
    obtain ⟨v, hv⟩ := List.head?_eq_some_iff.1 hwf
    rw [Statement.chars, hv] at hchars
    -- The two brackets in front are not the carriage return at the end.
    obtain ⟨w, hw⟩ : ∃ w, u.toList = '[' :: '[' :: w := by
      generalize u.toList = s at hchars
      cases s with
      | nil => simp at hchars
      | cons c s =>
        cases s with
        | nil => simp at hchars
        | cons d w =>
          simp only [List.cons_append, List.cons.injEq] at hchars
          obtain ⟨rfl, rfl, _⟩ := hchars
          exact ⟨w, rfl⟩
    refine ⟨rfl, .escapedLiteral (String.ofList ('[' :: w)), classify_eq_escapedLiteral.2 ?_⟩
    rw [hw, String.toList_ofList]
    exact ⟨rfl, rfl⟩
  | expression e =>
    obtain ⟨t, _, hput⟩ := e.exists_expression_put hwf.1
    rw [Statement.chars, hput, ← List.cons_append] at hchars
    have hlast := congrArg List.getLast? hchars
    rw [List.getLast?_concat, List.getLast?_concat] at hlast
    exact absurd (Option.some.inj hlast) (by decide)

/-! ## The normal form -/

/-- Where `format` prints a text, this text and the original one stand for one statement, of which
it is the canonical text. Every command succeeds on both with its output for that statement, on the
canonical text both given and piped in as it was printed. If the text ends in a carriage return, it
is that of a literal, and piped in it counts as the text without that carriage return. None of this
depends on how command lines are read. -/
theorem run_canonical_eq {read : List String → Except UsageError Invocation} {limit : Nat}
    {s t : String} {formatArguments : List String} {formatInput : Input}
    (hformat : Requests read formatArguments .format limit (some s))
    (hrun : runWith read formatArguments formatInput = .success (t ++ "\n")) (task : Task) :
    ∃ statement, classify limit s = .ok statement ∧ classify limit t = .ok statement ∧
      statement.text = t ∧
      (∀ arguments input, Requests read arguments task limit (some s) →
        runWith read arguments input = .success (task.output statement).print) ∧
      (∀ arguments input, Requests read arguments task limit (some t) →
        runWith read arguments input = .success (task.output statement).print) ∧
      (t.toList.getLast? ≠ some '\r' → ∀ arguments, Requests read arguments task limit none →
        runWith read arguments (.piped (t ++ "\n").toUTF8) =
          .success (task.output statement).print) ∧
      ∀ u, t = u ++ "\r" →
        statement.isLiteral ∧ ∃ literal, classify limit u = .ok literal ∧
          (∀ arguments input, Requests read arguments task limit (some u) →
            runWith read arguments input = .success (task.output literal).print) ∧
          ∀ arguments, Requests read arguments task limit none →
            runWith read arguments (.piped (t ++ "\n").toUTF8) =
              .success (task.output literal).print := by
  rw [runWith_of_requests hformat rfl] at hrun
  obtain ⟨statement, hs, rfl⟩ := Task.classify_of_exit_format hrun
  -- Both texts stand for the same statement, and tasks depend on nothing else.
  have hwf := wellFormed_of_classify hs
  have ht : classify limit statement.text = .ok statement := classify_text hwf
  refine ⟨statement, hs, ht, rfl, ?_, ?_, ?_, ?_⟩
  · intro arguments input h
    rw [runWith_of_requests h rfl, Task.exit_of_classify hs]
  · intro arguments input h
    rw [runWith_of_requests h rfl, Task.exit_of_classify ht]
  · intro hlast arguments h
    rw [runWith_of_requests h (statement?_piped _), String.toList_append]
    change task.exit limit (String.ofList (withoutLineBreak (statement.text.toList ++ ['\n']))) = _
    rw [withoutLineBreak_append hlast, String.ofList_toList, Task.exit_of_classify ht]
  · intro u hu
    obtain ⟨hliteral, literal, hclassify⟩ := classify_of_text_eq_append_return hwf hu
    refine ⟨hliteral, literal, hclassify, ?_, ?_⟩
    · intro arguments input h
      rw [runWith_of_requests h rfl, Task.exit_of_classify hclassify]
    · intro arguments h
      have hchars : (statement.text ++ "\n").toList = u.toList ++ ['\r', '\n'] := by
        rw [hu, String.toList_append, String.toList_append, List.append_assoc]
        rfl
      rw [runWith_of_requests h (statement?_piped _), hchars, withoutLineBreak_append_return,
        String.ofList_toList, Task.exit_of_classify hclassify]

/-- An expression with blanks and a leading zero, and a literal that ends in a carriage return. -/
theorem run_canonical_eq_blanks_and_return :
    (∃ statement, classify 2 "[f(g(), 1)]" = .ok statement ∧ statement.text = "[f(g(), 1)]" ∧
      run ["parse", "--max-depth=2", "[ f(g ( ) , 01) ]"] .terminal =
        .success ((Task.parse .compact).output statement).print ∧
      run ["parse", "--max-depth=2", "[f(g(), 1)]"] .terminal =
        .success ((Task.parse .compact).output statement).print ∧
      run ["parse", "--max-depth=2"] (.piped ("[f(g(), 1)]" ++ "\n").toUTF8) =
        .success ((Task.parse .compact).output statement).print) ∧
    ∃ literal, classify defaultLimit "a" = .ok literal ∧
      run ["parse", "a"] .terminal = .success ((Task.parse .compact).output literal).print ∧
      run ["parse"] (.piped ("a\r" ++ "\n").toUTF8) =
        .success ((Task.parse .compact).output literal).print := by
  constructor
  · have hformat : Requests Line.read ["format", "--max-depth=2", "[ f(g ( ) , 01) ]"] .format 2
        (some "[ f(g ( ) , 01) ]") := by rw [Requests]; decide +kernel
    have hrun : run ["format", "--max-depth=2", "[ f(g ( ) , 01) ]"] .terminal =
        .success ("[f(g(), 1)]" ++ "\n") := by decide +kernel
    obtain ⟨statement, -, ht, htext, hs, hcanonical, hpipe, -⟩ :=
      run_canonical_eq hformat hrun (.parse .compact)
    refine ⟨statement, ht, htext, hs _ _ ?_, hcanonical _ _ ?_, hpipe (by decide) _ ?_⟩
    all_goals
      rw [Requests]
      decide +kernel
  · have hformat : Requests Line.read ["format", "a\r"] .format defaultLimit (some "a\r") := by
      rw [Requests]; decide +kernel
    have hrun : run ["format", "a\r"] .terminal = .success ("a\r" ++ "\n") := by decide +kernel
    obtain ⟨_, -, -, -, -, -, -, hreturn⟩ := run_canonical_eq hformat hrun (.parse .compact)
    obtain ⟨-, literal, hliteral, hu, hpipe⟩ := hreturn "a" rfl
    refine ⟨literal, hliteral, hu _ _ ?_, hpipe _ ?_⟩
    all_goals
      rw [Requests]
      decide +kernel

end Command

end BracketExpr
