import BracketExpr.Json.Tree
import BracketExpr.Proofs.JsonText

/-!
# The JSON text of a statement loses nothing

The JSON value of a tree determines the tree: the name of a choice tells the choice, and an
expression has an `accessor` field exactly if it has steps. Since the text of a value determines the
value, only equal statements have equal texts.
-/

namespace BracketExpr

/-- An object with one member tells its name and its value. -/
theorem Json.choice_inj {n m : String} {j k : Json} (h : choice n j = choice m k) :
    n = m ∧ j = k := by
  simpa [choice] using h

mutual

/-- The JSON value of an expression determines the expression. -/
theorem Expr.toJson_inj : ∀ {a b : Expr}, a.toJson = b.toJson → a = b
  | ⟨c, []⟩, ⟨d, []⟩, h => by
    simp only [Expr.toJson, Json.obj.injEq, List.cons.injEq, Prod.mk.injEq] at h
    rw [Call.toJson_inj h.1.2]
  | ⟨c, []⟩, ⟨d, y :: ys⟩, h => by
    simp [Expr.toJson] at h
  | ⟨c, x :: xs⟩, ⟨d, []⟩, h => by
    simp [Expr.toJson] at h
  | ⟨c, x :: xs⟩, ⟨d, y :: ys⟩, h => by
    simp only [Expr.toJson, Json.obj.injEq, List.cons.injEq, Prod.mk.injEq, Json.arr.injEq] at h
    rw [Call.toJson_inj h.1.2, Step.toJson_inj h.2.1.2.1, Step.allToJson_inj h.2.1.2.2]

theorem Call.toJson_inj : ∀ {a b : Call}, a.toJson = b.toJson → a = b
  | ⟨n, s⟩, ⟨m, t⟩, h => by
    simp only [Call.toJson, Json.obj.injEq, List.cons.injEq, Prod.mk.injEq, Json.arr.injEq,
      Json.str.injEq] at h
    rw [h.1.2, Argument.allToJson_inj h.2.1.2]

theorem Argument.allToJson_inj : ∀ {a b : List Argument},
    Argument.allToJson a = Argument.allToJson b → a = b
  | [], [], _ => rfl
  | [], _ :: _, h => by simp [Argument.allToJson] at h
  | _ :: _, [], h => by simp [Argument.allToJson] at h
  | x :: s, y :: t, h => by
    simp only [Argument.allToJson, List.cons.injEq] at h
    rw [Argument.toJson_inj h.1, Argument.allToJson_inj h.2]

/-- The kind of an argument is the name of its member, so no two arguments have one encoding. -/
theorem Argument.toJson_inj : ∀ {a b : Argument}, a.toJson = b.toJson → a = b
  | .expr a, .expr b, h => by
    rw [Expr.toJson_inj (Json.choice_inj h).2]
  | .str a, .str b, h => by
    rw [Json.str.inj (Json.choice_inj h).2]
  | .num a, .num b, h => by
    rw [Int64.toInt_inj.1 (Json.num.inj (Json.choice_inj h).2)]
  | .bool a, .bool b, h => by
    rw [Json.bool.inj (Json.choice_inj h).2]
  | .expr _, .str _, h | .expr _, .num _, h | .expr _, .bool _, h
  | .str _, .expr _, h | .str _, .num _, h | .str _, .bool _, h
  | .num _, .expr _, h | .num _, .str _, h | .num _, .bool _, h
  | .bool _, .expr _, h | .bool _, .str _, h | .bool _, .num _, h =>
    absurd (Json.choice_inj h).1 (by decide)

theorem Step.allToJson_inj : ∀ {a b : List Step}, Step.allToJson a = Step.allToJson b → a = b
  | [], [], _ => rfl
  | [], _ :: _, h => by simp [Step.allToJson] at h
  | _ :: _, [], h => by simp [Step.allToJson] at h
  | x :: s, y :: t, h => by
    simp only [Step.allToJson, List.cons.injEq] at h
    rw [Step.toJson_inj h.1, Step.allToJson_inj h.2]

theorem Step.toJson_inj : ∀ {a b : Step}, a.toJson = b.toJson → a = b
  | .member a, .member b, h => by
    rw [Json.str.inj (Json.choice_inj h).2]
  | .index a, .index b, h => by
    rw [Index.toJson_inj (Json.choice_inj h).2]
  | .member _, .index _, h | .index _, .member _, h =>
    absurd (Json.choice_inj h).1 (by decide)

theorem Index.toJson_inj : ∀ {a b : Index}, a.toJson = b.toJson → a = b
  | .expr a, .expr b, h => by
    rw [Expr.toJson_inj (Json.choice_inj h).2]
  | .num a, .num b, h => by
    rw [Int64.toInt_inj.1 (Json.num.inj (Json.choice_inj h).2)]
  | .property a, .property b, h => by
    rw [Json.str.inj (Json.choice_inj h).2]
  | .expr _, .num _, h | .expr _, .property _, h
  | .num _, .expr _, h | .num _, .property _, h
  | .property _, .expr _, h | .property _, .num _, h =>
    absurd (Json.choice_inj h).1 (by decide)

end

/-- No two statements have one encoding. -/
theorem Statement.toJson_inj : ∀ {a b : Statement}, a.toJson = b.toJson → a = b
  | .escapedLiteral s, .escapedLiteral t, h => by
    rw [Json.str.inj (Json.choice_inj h).2]
  | .expression a, .expression b, h => by
    rw [Expr.toJson_inj (Json.choice_inj h).2]
  | .stringLiteral s, .stringLiteral t, h => by
    rw [Json.str.inj (Json.choice_inj h).2]
  | .escapedLiteral _, .expression _, h | .escapedLiteral _, .stringLiteral _, h
  | .expression _, .escapedLiteral _, h | .expression _, .stringLiteral _, h
  | .stringLiteral _, .escapedLiteral _, h | .stringLiteral _, .expression _, h =>
    absurd (Json.choice_inj h).1 (by decide)

/-- The compact JSON text of a statement loses nothing: only equal statements have equal texts. And
it is a single line, without any control character, whatever the strings of the statement hold. -/
theorem Statement.compactText_eq_iff_and_singleLine (a b : Statement) :
    (a.toJson.text .compact = b.toJson.text .compact ↔ a = b) ∧
      (∀ c ∈ (a.toJson.text .compact).toList, 0x20 ≤ c.toNat) ∧
      '\n' ∉ (a.toJson.text .compact).toList := by
  have hprintable : Json.IsPrintable (a.toJson.text .compact).toList := by
    rw [Json.text, String.toList_ofList]
    exact Json.isPrintable_put 0 a.toJson Json.isPrintable_nil
  refine ⟨⟨fun h => toJson_inj (Json.text_inj h), fun h => by rw [h]⟩, hprintable, fun hmem => ?_⟩
  exact absurd (hprintable '\n' hmem) (by decide)

/-- Two arguments whose strings hold a quote with a line feed, and their escapes in its place. -/
theorem Statement.compactText_eq_iff_and_singleLine_escapes :
    (expression ⟨⟨"f", [.str "\"\n"]⟩, []⟩).toJson.text .compact ≠
        (expression ⟨⟨"f", [.str "\\\"\\n"]⟩, []⟩).toJson.text .compact ∧
      '\\' ∈ ((expression ⟨⟨"f", [.str "\"\n"]⟩, []⟩).toJson.text .compact).toList ∧
      0x20 ≤ '\\'.toNat ∧
      '\n' ∉ ((expression ⟨⟨"f", [.str "\"\n"]⟩, []⟩).toJson.text .compact).toList := by
  obtain ⟨hinj, hprintable, hline⟩ := compactText_eq_iff_and_singleLine
    (.expression ⟨⟨"f", [.str "\"\n"]⟩, []⟩) (.expression ⟨⟨"f", [.str "\\\"\\n"]⟩, []⟩)
  have hmem : '\\' ∈ ((expression ⟨⟨"f", [.str "\"\n"]⟩, []⟩).toJson.text .compact).toList := by
    decide +kernel
  exact ⟨fun h => absurd (hinj.1 h) (by decide +kernel), hmem, hprintable _ hmem, hline⟩

end BracketExpr
