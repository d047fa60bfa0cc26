import BracketExpr.Proofs.DiagnosticPlace
import BracketExpr.Proofs.Settling

/-!
# Expressions that are cut off and expressions that go on

No accepted expression is the start of another. What stands behind the closing bracket is a fault at
its first character, since an expression is read to its bracket whatever follows. And if an
expression is cut off anywhere, its reader is left waiting for more text: a fault that no further
text could mend would be met in the whole expression too.
-/

namespace BracketExpr

namespace Reader

/-- A text behind an enclosed expression is a fault at its start. -/
theorem enclosed_append {limit : Nat} {s rest : Text} {e : Expr}
    (h : enclosed limit s = .done e rest) {t : Text} (ht : t ≠ []) :
    enclosed limit (s ++ t) = .failed (.atStart .trailingCharacters t) t := by
  obtain ⟨-, ⟨w₁, v, w₂, hs, hw₁, hv, hw₂⟩, hd⟩ := enclosed_eq_done.1 h
  obtain rfl := (List.cons.inj hs).2
  have hread := enclosed_of_expression hw₁ hv hw₂ hd t
  rw [if_neg ht] at hread
  simpa using hread

/-- A fault that cannot be mended is met again where the text goes on. -/
theorem enclosed_append_of_isFinal {limit : Nat} {s rest : Text} {fault : Fault}
    (h : enclosed limit s = .failed fault rest) (hfinal : fault.kind.isFinal) (t : Text) :
    ∃ found rest',
      enclosed limit (s ++ t) = .failed ⟨fault.kind, fault.rest ++ t, found⟩ rest' := by
  rcases enclosed_settles limit s with hawaits | hrepeated
  · rw [h] at hawaits
    exact absurd hfinal (Bool.eq_false_iff.1 hawaits)
  · have ht := hrepeated t
    rw [h] at ht
    exact ht

/-- Where an enclosed expression is cut off, its reader asks for more text. -/
theorem enclosed_failed_of_append {limit : Nat} {s t rest : Text} {e : Expr}
    (h : enclosed limit (s ++ t) = .done e rest) (ht : t ≠ []) :
    ∃ fault rest', enclosed limit s = .failed fault rest' ∧ fault.kind.isFinal = false := by
  cases hs : enclosed limit s with
  | done e' rest' =>
    have happend := enclosed_append hs ht
    rw [h] at happend
    cases happend
  | failed fault rest' =>
    refine ⟨fault, rest', rfl, Bool.eq_false_iff.2 fun hfinal => ?_⟩
    obtain ⟨found, rest'', hread⟩ := enclosed_append_of_isFinal hs hfinal t
    rw [h] at hread
    cases hread

end Reader

/-! ## Classification -/

/-- What stands behind an accepted expression is met with a fault at its first character. -/
theorem classify_append_of_expression {limit : Nat} {s : String} {e : Expr}
    (h : classify limit s = .ok (.expression e)) {t : String} (ht : t ≠ "") :
    ∃ c, t.toList.head? = some c ∧ classify limit (s ++ t) =
      .error ⟨.trailingCharacters, s.utf8ByteSize, some (String.ofList [c])⟩ := by
  obtain ⟨u, rest, hs, hne, hread⟩ := classify_eq_expression.1 h
  obtain ⟨c, v, hv⟩ := List.exists_cons_of_ne_nil (mt String.toList_eq_nil_iff.1 ht)
  have hread' := Reader.enclosed_append hread (t := t.toList) (by simp [hv])
  have hhead : (u ++ t.toList).head? ≠ some '[' := by
    cases u with
    | nil =>
      -- The expression has its closing bracket at least.
      obtain ⟨-, ⟨w₁, v, w₂, hnil, -⟩, -⟩ := Reader.enclosed_eq_done.1 hread
      simp at hnil
    | cons d u => exact hne
  have hsize : Text.byteLength (['['] ++ u) = s.utf8ByteSize := by
    rw [Text.byteLength_eq_utf8ByteSize, List.singleton_append, ← hs, String.ofList_toList]
  refine ⟨c, by rw [hv]; rfl, ?_⟩
  rw [classify_of_enclosed_eq_failed (s := u ++ t.toList) (by simp [hs]) hhead hread', hv, ← hsize]
  exact congrArg Except.error (Cursor.diagnose_append ['['] u ⟨_, c :: v, _⟩)

/-- A part of an accepted expression from its start is rejected, and what is asked for is the rest
of the text. -/
theorem classify_of_expression_append {limit : Nat} {p t : String} {e : Expr}
    (h : classify limit (p ++ t) = .ok (.expression e)) (hp : p ≠ "") (ht : t ≠ "") :
    ∃ d, classify limit p = .error d ∧ d.kind.isFinal = false := by
  obtain ⟨u, rest, hs, hne, hread⟩ := classify_eq_expression.1 h
  obtain ⟨c, v, hv⟩ := List.exists_cons_of_ne_nil (mt String.toList_eq_nil_iff.1 hp)
  rw [String.toList_append, hv, List.cons_append] at hs
  obtain ⟨rfl, rfl⟩ := List.cons.inj hs
  obtain ⟨fault, rest', hfailed, hkind⟩ :=
    Reader.enclosed_failed_of_append hread (mt String.toList_eq_nil_iff.1 ht)
  have hhead : v.head? ≠ some '[' := by
    intro hbracket
    obtain ⟨v, rfl⟩ := List.head?_eq_some_iff.1 hbracket
    exact hne rfl
  exact ⟨_, classify_of_enclosed_eq_failed hv hhead hfailed, hkind⟩

/-- Accepted expressions are prefix-free, and truncation is detected. Whatever text is put behind an
accepted expression, the fault is found at the first character of that text. Wherever the expression
is cut off, the part before the cut is rejected, and never for what stands behind an expression, for
the name of a function or for the nesting limit. -/
theorem classify_prefixFree {limit : Nat} {s : String} {e : Expr}
    (h : classify limit s = .ok (.expression e)) :
    (∀ t : String, t ≠ "" → ∃ c, t.toList.head? = some c ∧ classify limit (s ++ t) =
      .error ⟨.trailingCharacters, s.utf8ByteSize, some (String.ofList [c])⟩) ∧
    ∀ p t : String, p ≠ "" → t ≠ "" → s = p ++ t → ∃ d, classify limit p = .error d ∧
      d.kind ≠ .trailingCharacters ∧ d.kind ≠ .invalidFunctionName ∧
      d.kind ≠ .maxDepthExceeded := by
  refine ⟨fun t ht => classify_append_of_expression h ht, fun p t hp ht hs => ?_⟩
  subst hs
  obtain ⟨d, hd, hkind⟩ := classify_of_expression_append h hp ht
  refine ⟨d, hd, ?_, ?_, ?_⟩
  all_goals
    intro hfinal
    rw [hfinal] at hkind
    cases hkind

/-- An expression that is cut off inside the name of a nested call, which starts like a boolean. -/
theorem classify_prefixFree_nested_call :
    classify 2 "[f(true.b('é')).m]" = .ok (.expression
      ⟨⟨"f", [.expr ⟨⟨"true.b", [.str "é"]⟩, []⟩]⟩, [.member "m"]⟩) ∧
    classify 2 ("[f(true.b('é')).m]" ++ ".n]") =
      .error ⟨.trailingCharacters, 19, some "."⟩ ∧
    "[f(true." ≠ "" ∧ "b('é')).m]" ≠ "" ∧ "[f(true.b('é')).m]" = "[f(true." ++ "b('é')).m]" ∧
    ∃ d, classify 2 "[f(true." = .error d ∧ d.kind ≠ .trailingCharacters := by
  have h : classify 2 "[f(true.b('é')).m]" = .ok (.expression
      ⟨⟨"f", [.expr ⟨⟨"true.b", [.str "é"]⟩, []⟩]⟩, [.member "m"]⟩) := by decide +kernel
  have hsplit : "[f(true.b('é')).m]" = "[f(true." ++ "b('é')).m]" := by decide +kernel
  obtain ⟨happend, hcut⟩ := classify_prefixFree h
  refine ⟨h, ?_, by decide, by decide, hsplit, ?_⟩
  · obtain ⟨c, hc, hread⟩ := happend ".n]" (by decide)
    obtain rfl := Option.some.inj hc
    exact hread
  · obtain ⟨d, hd, hkind, -⟩ := hcut "[f(true." "b('é')).m]" (by decide) (by decide) hsplit
    exact ⟨d, hd, hkind⟩

end BracketExpr
