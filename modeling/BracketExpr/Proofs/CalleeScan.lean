import BracketExpr.Proofs.Outline
import BracketExpr.Proofs.Recognition
import BracketExpr.Tree.Nesting

/-!
# The names of called functions in a text

The functions that an expression calls can be listed without reading the expression: one for each
parenthesis that opens outside quotes, from left to right, with the name that stands in front of it.
-/

namespace BracketExpr

/-- The names in front of the parentheses that open outside quotes, from left to right. -/
def Text.calleeNames (s : Text) : List String :=
  (s.unquoted.filter fun p => p.2 == '(').map fun p => String.ofList (lastName p.1)

/-- The name of the function, if the bracket opens the arguments of a call. -/
def Mark.name? : Mark → Option String
  | .call name => some name
  | .callEnd | .index | .indexEnd => none

/-- A mark has a name at an opening parenthesis only, the last one before it. -/
theorem Mark.name?_at? (before : Text) (c : Char) :
    (at? before c).bind name? = if c = '(' then some (String.ofList before.lastName) else none := by
  by_cases hc : c = '('
  · rw [hc]
    rfl
  · rw [if_neg hc]
    unfold at?
    split
    · contradiction
    all_goals rfl

/-- The scan for names is the scan for marks with all other marks left out. -/
theorem Text.calleeNames_eq (s : Text) :
    s.calleeNames = (outlineFrom [] s).filterMap Mark.name? := by
  rw [calleeNames, outlineFrom, List.filterMap_filterMap, unquoted]
  induction unquotedFrom [] s with
  | nil => rfl
  | cons p l ih =>
    obtain ⟨before, c⟩ := p
    rw [List.filterMap_cons, Mark.name?_at?, ← ih]
    by_cases hc : c = '('
    · simp [hc]
    · simp [hc]

/-! ## Names in the outline of a tree -/

mutual

/-- The outline of an expression holds the names of the functions that it calls, in their order. -/
theorem Expr.filterMap_name?_outline : ∀ e : Expr,
    e.outline.filterMap Mark.name? = e.functionNames
  | ⟨call, accessor⟩ => by
    rw [Expr.outline, Expr.functionNames, List.filterMap_append, Call.filterMap_name?_outline,
      Step.filterMap_name?_outlines]

/-- The name of a call comes before those of its arguments. -/
theorem Call.filterMap_name?_outline : ∀ c : Call,
    c.outline.filterMap Mark.name? = c.functionNames
  | ⟨name, args⟩ => by
    rw [Call.outline, Call.functionNames, List.filterMap_cons, List.filterMap_append,
      Argument.filterMap_name?_outlines]
    simp [Mark.name?]

/-- Arguments have their names one after the other. -/
theorem Argument.filterMap_name?_outlines : ∀ args : List Argument,
    (Argument.outlines args).filterMap Mark.name? = Argument.allFunctionNames args
  | [] => rfl
  | a :: args => by
    rw [Argument.outlines, Argument.allFunctionNames, List.filterMap_append,
      Argument.filterMap_name?_outline, Argument.filterMap_name?_outlines]

theorem Argument.filterMap_name?_outline : ∀ a : Argument,
    a.outline.filterMap Mark.name? = a.functionNames
  | .expr e => Expr.filterMap_name?_outline e
  | .str _ | .num _ | .bool _ => rfl

theorem Step.filterMap_name?_outlines : ∀ steps : List Step,
    (Step.outlines steps).filterMap Mark.name? = Step.allFunctionNames steps
  | [] => rfl
  | s :: steps => by
    rw [Step.outlines, Step.allFunctionNames, List.filterMap_append, Step.filterMap_name?_outline,
      Step.filterMap_name?_outlines]

theorem Step.filterMap_name?_outline : ∀ s : Step,
    s.outline.filterMap Mark.name? = s.functionNames
  | .member _ => rfl
  | .index i => by
    rw [Step.outline, Step.functionNames, List.filterMap_cons, List.filterMap_append,
      Index.filterMap_name?_outline]
    simp [Mark.name?]

theorem Index.filterMap_name?_outline : ∀ i : Index,
    i.outline.filterMap Mark.name? = i.functionNames
  | .expr e => Expr.filterMap_name?_outline e
  | .num _ | .property _ => rfl

end

/-! ## Names in a text -/

/-- The names in an accepted expression are those that a scan of its text finds. -/
theorem Grammar.Enclosed.functionNames_eq {s : Text} {e : Expr} (h : Enclosed s e) :
    e.functionNames = s.calleeNames := by
  rw [Text.calleeNames_eq, h.outlineFrom_eq, List.filterMap_cons, List.filterMap_append,
    e.filterMap_name?_outline]
  simp [Mark.name?]

/-- The functions that an accepted expression calls are those whose names stand in front of the
parentheses that open outside quotes: one for each of them, in the order of the text. -/
theorem functionNames_eq_calleeNames {limit : Nat} {input : String} {e : Expr}
    (h : classify limit input = .ok (.expression e)) :
    e.functionNames = Text.calleeNames input.toList ∧
      e.functionNames.length = (Text.unquoted input.toList).countP fun p => p.2 == '(' := by
  have hnames := (enclosed_of_classify h).1.functionNames_eq
  refine ⟨hnames, ?_⟩
  rw [hnames, Text.calleeNames, List.length_map, List.countP_eq_length_filter]

/-- Parentheses inside quoted texts, a name apart from its parenthesis, and a call in an index. -/
theorem functionNames_eq_calleeNames_quoted :
    classify 3 "[f(g\n( 'h(''i(' ), ')')[k.l()]]" = .ok (.expression
        ⟨⟨"f", [.expr ⟨⟨"g", [.str "h('i("]⟩, []⟩, .str ")"]⟩,
          [.index (.expr ⟨⟨"k.l", []⟩, []⟩)]⟩) ∧
      ["f", "g", "k.l"] = Text.calleeNames "[f(g\n( 'h(''i(' ), ')')[k.l()]]".toList := by
  have h : classify 3 "[f(g\n( 'h(''i(' ), ')')[k.l()]]" = .ok (.expression
      ⟨⟨"f", [.expr ⟨⟨"g", [.str "h('i("]⟩, []⟩, .str ")"]⟩,
        [.index (.expr ⟨⟨"k.l", []⟩, []⟩)]⟩) := by decide +kernel
  exact ⟨h, (functionNames_eq_calleeNames h).1⟩

end BracketExpr
