import BracketExpr.Classify
import BracketExpr.Proofs.Completeness

/-!
# The recognized language

A configuration value is classified as an expression exactly if the grammar derives it, and the
tree is the one that the grammar gives to it. The nesting limit cuts the language down to the trees
that keep to it and does nothing else to it.
-/

namespace BracketExpr

namespace Reader

open Production

/-- An expression of the grammar is read up to its closing bracket, behind which the text has to
end. -/
theorem enclosed_of_expression {limit : Nat} {w₁ t w₂ : Text} {e : Expr} (hw₁ : w₁.IsBlank)
    (ht : Grammar.Expression t e) (hw₂ : w₂.IsBlank) (hd : e.depth ≤ limit) (rest : Text) :
    enclosed limit (w₁ ++ (t ++ (w₂ ++ ']' :: rest))) =
      if rest = [] then .done e [] else .failed (.atStart .trailingCharacters rest) rest := by
  -- A tree has a depth of at least one, so the limit leaves room for it.
  obtain ⟨limit, rfl⟩ : ∃ k, limit = k + 1 := by
    obtain ⟨c, xs⟩ := e
    have hpos : 1 ≤ limit := Nat.le_trans (Nat.succ_le_succ (Nat.zero_le _)) hd
    exact ⟨limit - 1, (Nat.sub_add_cancel hpos).symm⟩
  have hclose : Text.Closes (w₂ ++ ']' :: rest) :=
    Text.closes_blank_append_cons hw₂ (.inr (.inr rfl))
  have hexpr := expression_complete (limit + 1) t e _ ⟨ht, hd⟩ hclose.endsSteps
  rw [enclosed, enclosing, bind_read_of_done ((expression_blank_append hw₁ _).trans hexpr),
    lex_skipBlanks, bind_read_of_done (skipBlanks_read _), Text.skipBlanks_skipBlanks,
    Text.skipBlanks_blank_append_cons hw₂ (by decide)]
  cases rest <;> rfl

/-- The texts that are read up to the closing bracket at their end. -/
theorem enclosed_eq_done {limit : Nat} {s rest : Text} {e : Expr} :
    enclosed limit s = .done e rest ↔
      rest = [] ∧ Grammar.Enclosed ('[' :: s) e ∧ e.depth ≤ limit := by
  constructor
  · intro h
    obtain ⟨e', s₁, rexpr, h⟩ := bind_eq_done.1 h
    obtain ⟨_, s₂, rskip, rclose⟩ := bind_eq_done.1 h
    rw [lex_current, bind_read_of_done (current_read s₂)] at rclose
    obtain ⟨w₁, t, w₂, hs, hw₁, hw₂, ht, hd⟩ := expression_sound limit s e' s₁ rexpr
    obtain ⟨w₃, hw₃, hs₁⟩ := skipBlanks_eq_done rskip
    cases s₂ with
    | nil => cases rclose
    | cons c s₂ =>
      dsimp only [List.head?_cons] at rclose
      split at rclose
      next hc =>
        rw [lex_advance, bind_read_of_done (advance_read _),
          bind_read_of_done (current_read _)] at rclose
        cases s₂ with
        | nil =>
          cases rclose
          refine ⟨rfl, ⟨w₁, t, w₂ ++ w₃, ?_, hw₁, ht, hw₂.append hw₃⟩, hd⟩
          simp [hs, hs₁, hc]
        | cons d s₂ => cases rclose
      next => cases rclose
  · rintro ⟨rfl, ⟨w₁, t, w₂, hs, hw₁, ht, hw₂⟩, hd⟩
    obtain rfl := (List.cons.inj hs).2
    exact enclosed_of_expression hw₁ ht hw₂ hd []

end Reader

/-- A value is classified as an expression if the text after its first bracket is read up to the
closing bracket. -/
theorem classify_eq_expression {limit : Nat} {input : String} {e : Expr} :
    classify limit input = .ok (.expression e) ↔
      ∃ s rest, input.toList = '[' :: s ∧ s.head? ≠ some '[' ∧
        Reader.enclosed limit s = .done e rest := by
  rw [classify]
  constructor
  · intro h
    split at h
    next => cases h
    next s hne heq =>
      rw [Cursor.run] at h
      split at h
      next e' c hrun =>
        cases h
        split at hrun
        next rest hread =>
          cases hrun
          refine ⟨s, rest, heq, fun hs => ?_, hread⟩
          obtain ⟨u, rfl⟩ := List.head?_eq_some_iff.1 hs
          exact hne u rfl
        next => cases hrun
      next => cases h
    next => cases h
  · rintro ⟨s, rest, heq, hs, hread⟩
    split
    next u hu =>
      rw [heq] at hu
      exact absurd (by rw [(List.cons.inj hu).2]; rfl) hs
    next s' _ hs' =>
      obtain rfl := (List.cons.inj (heq.symm.trans hs')).2
      simp only [Cursor.run, hread]
    next _ hne => exact absurd heq (hne s)

/-- Whatever is classified as an expression is one of the grammar. -/
theorem enclosed_of_classify {limit : Nat} {input : String} {e : Expr}
    (h : classify limit input = .ok (.expression e)) :
    Grammar.Enclosed input.toList e ∧ e.depth ≤ limit := by
  obtain ⟨s, rest, heq, _, hread⟩ := classify_eq_expression.1 h
  obtain ⟨_, henclosed, hd⟩ := Reader.enclosed_eq_done.1 hread
  exact ⟨heq ▸ henclosed, hd⟩

/-- An expression starts with a letter, so no second bracket makes it a literal. -/
theorem Grammar.Enclosed.exists_tail {s : Text} {e : Expr} (h : Grammar.Enclosed s e) :
    ∃ t, s = '[' :: t ∧ t.head? ≠ some '[' := by
  obtain ⟨w₁, t, w₂, rfl, hw₁, ht, _⟩ := h
  obtain ⟨c, v, rfl, hc⟩ := ht.exists_head
  refine ⟨_, rfl, ?_⟩
  have hout : Text.StartsOutside (· == '[') (w₁ ++ (c :: v ++ (w₂ ++ [']']))) := by
    refine .blank_append hw₁ (fun d hd => ?_) ?_
    · rcases isBlank_iff.1 hd with rfl | rfl | rfl | rfl <;> decide
    · refine Text.startsOutside_cons.2 (beq_eq_false_iff_ne.2 ?_)
      rintro rfl
      exact absurd hc (by decide)
  intro hbracket
  rw [Text.StartsOutside, hbracket] at hout
  cases hout

/-- An expression of the grammar is classified as one if it keeps to the limit. -/
theorem classify_of_enclosed {limit : Nat} {input : String} {e : Expr}
    (h : Grammar.Enclosed input.toList e) (hd : e.depth ≤ limit) :
    classify limit input = .ok (.expression e) := by
  obtain ⟨t, ht, hne⟩ := h.exists_tail
  rw [ht] at h
  exact classify_eq_expression.2 ⟨t, [], ht, hne, Reader.enclosed_eq_done.2 ⟨rfl, h, hd⟩⟩

/-- The classifier accepts exactly the language of the grammar, cut down to the trees that keep to
the nesting limit, and it gives each text its tree. -/
theorem classify_eq_expression_iff_enclosed (limit : Nat) (input : String) (e : Expr) :
    classify limit input = .ok (.expression e) ↔
      Grammar.Enclosed input.toList e ∧ e.depth ≤ limit := by
  constructor
  · exact enclosed_of_classify
  · rintro ⟨h, hd⟩
    exact classify_of_enclosed h hd

end BracketExpr
