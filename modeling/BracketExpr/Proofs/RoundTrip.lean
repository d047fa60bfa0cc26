import BracketExpr.Proofs.Limit
import BracketExpr.Tree.Canonical

/-!
# Canonical text and reading

Trees hold arbitrary strings as names. A tree can be written down if its names are names of the
grammar. For these trees, and for no others, the canonical text is read back as the same tree: the
canonical text of such a tree is derived by the grammar, and a tree that has been read has names of
the grammar only.
-/

namespace BracketExpr

/-! ## Trees that can be written down -/

mutual

/-- Every function name and every member name in the tree is one of the grammar. There is no
condition on accessors, since one without steps is no accessor. -/
def Expr.Writable : Expr → Prop
  | ⟨call, accessor⟩ => call.Writable ∧ Step.AllWritable accessor

def Call.Writable : Call → Prop
  | ⟨name, args⟩ => IsFunctionName name.toList ∧ Argument.AllWritable args

def Argument.AllWritable : List Argument → Prop
  | [] => True
  | a :: args => a.Writable ∧ Argument.AllWritable args

def Argument.Writable : Argument → Prop
  | .expr e => e.Writable
  | .str _ | .num _ | .bool _ => True

def Step.AllWritable : List Step → Prop
  | [] => True
  | s :: steps => s.Writable ∧ Step.AllWritable steps

def Step.Writable : Step → Prop
  | .member name => IsMemberName name.toList
  | .index i => i.Writable

def Index.Writable : Index → Prop
  | .expr e => e.Writable
  | .num _ | .property _ => True

end

/-- The statements that classification can give under a nesting limit: literals that start as they
have to, and trees that can be written down and keep to the limit. -/
def Statement.WellFormed (limit : Nat) : Statement → Prop
  | .stringLiteral text => text.toList.head? ≠ some '['
  | .escapedLiteral text => text.toList.head? = some '['
  | .expression e => e.Writable ∧ e.depth ≤ limit

/-! ## Canonical lexemes -/

theorem Numeral.isRun_naturalText (n : Nat) : Text.IsRun Char.isDigit (naturalText n) :=
  ⟨Nat.toDigits_ne_nil, fun c hc => Nat.isDigit_of_mem_toDigits (by decide) (by decide) hc⟩

/-- The decimal text of a number is a numeral for it. -/
theorem Numeral.isNumeral_text (n : Int64) : IsNumeral (text n.toInt) n := by
  cases h : n.toInt with
  | ofNat k =>
    rw [text]
    refine .natural (isRun_naturalText k) ?_
    rw [h, naturalText, Nat.ofDigitChars_ten_toDigits]
    rfl
  | negSucc k =>
    refine .negative (isRun_naturalText (k + 1)) ?_
    rw [h, naturalText, Nat.ofDigitChars_ten_toDigits]
    rfl

theorem Quoted.isQuotedBody_double (s : Text) : IsQuotedBody (double s) s := by
  induction s with
  | nil => exact .nil
  | cons c s ih =>
    by_cases hc : c = '\x27'
    · subst hc
      exact .quote ih
    · rw [double, if_neg hc]
      exact .char hc ih

/-- What is written between quotes is read back as the same text. -/
theorem Quoted.isQuoted_encode (s : Text) : IsQuoted (encode s) s :=
  ⟨double s, rfl, isQuotedBody_double s⟩

/-! ## The canonical text is in the grammar -/

/-- The canonical blank after a comma. -/
theorem Text.isBlank_space : IsBlank [' '] := by
  simp [IsBlank, isBlank]

mutual

/-- The canonical text of a tree that can be written down is an expression with this tree. -/
theorem Expr.exists_expression_put : ∀ e : Expr, e.Writable →
    ∃ t, Grammar.Expression t e ∧ ∀ rest, e.put rest = t ++ rest
  | ⟨⟨name, args⟩, accessor⟩, ⟨⟨hname, hargs⟩, haccessor⟩ => by
    obtain ⟨a, ha, hputa⟩ := Argument.exists_arguments_putAll args hargs
    obtain ⟨t, ht, hputt⟩ := Step.exists_steps_putAll accessor haccessor
    refine ⟨_, .mk hname Text.isBlank_nil Text.isBlank_nil ha Text.isBlank_nil ht, fun rest => ?_⟩
    simp [Expr.put, Call.put, hputa, hputt]

/-- Arguments that can be written are written as the grammar asks, whatever is put behind them. -/
theorem Argument.exists_arguments_putAll : ∀ args : List Argument, Argument.AllWritable args →
    ∃ t, Grammar.Arguments t args ∧ ∀ rest, Argument.putAll args rest = t ++ rest
  | [], _ => ⟨[], .nil, fun _ => rfl⟩
  | a :: args, ⟨ha, hargs⟩ => by
    obtain ⟨s, hs, hputs⟩ := Argument.exists_arg_put a ha
    obtain ⟨t, ht, hputt⟩ := Argument.exists_furtherArguments_putFurther args hargs
    refine ⟨s ++ t, .cons hs ht, fun rest => ?_⟩
    simp [Argument.putAll, hputs, hputt]

theorem Argument.exists_furtherArguments_putFurther : ∀ args : List Argument,
    Argument.AllWritable args →
    ∃ t, Grammar.FurtherArguments t args ∧ ∀ rest, Argument.putFurther args rest = t ++ rest
  | [], _ => ⟨[], .nil, fun _ => rfl⟩
  | a :: args, ⟨ha, hargs⟩ => by
    obtain ⟨s, hs, hputs⟩ := Argument.exists_arg_put a ha
    obtain ⟨t, ht, hputt⟩ := Argument.exists_furtherArguments_putFurther args hargs
    refine ⟨_, .cons Text.isBlank_nil Text.isBlank_space hs ht, fun rest => ?_⟩
    simp [Argument.putFurther, hputs, hputt]

theorem Argument.exists_arg_put : ∀ a : Argument, a.Writable →
    ∃ t, Grammar.Arg t a ∧ ∀ rest, a.put rest = t ++ rest
  | .expr e, h => by
    obtain ⟨t, ht, hput⟩ := Expr.exists_expression_put e h
    exact ⟨t, .expr ht, hput⟩
  | .str s, _ => ⟨_, .str (Quoted.isQuoted_encode s.toList), fun _ => rfl⟩
  | .num n, _ => ⟨_, .num (Numeral.isNumeral_text n), fun _ => rfl⟩
  | .bool b, _ => ⟨_, .bool b, fun _ => rfl⟩

/-- Steps that can be written are written as the grammar asks, whatever is put behind them. -/
theorem Step.exists_steps_putAll : ∀ steps : List Step, Step.AllWritable steps →
    ∃ t, Grammar.Steps t steps ∧ ∀ rest, Step.putAll steps rest = t ++ rest
  | [], _ => ⟨[], .nil, fun _ => rfl⟩
  | s :: steps, ⟨hs, hsteps⟩ => by
    obtain ⟨u, hu, hputu⟩ := Step.exists_accessStep_put s hs
    obtain ⟨t, ht, hputt⟩ := Step.exists_steps_putAll steps hsteps
    refine ⟨_, .cons Text.isBlank_nil hu ht, fun rest => ?_⟩
    simp [Step.putAll, hputu, hputt]

theorem Step.exists_accessStep_put : ∀ s : Step, s.Writable →
    ∃ t, Grammar.AccessStep t s ∧ ∀ rest, s.put rest = t ++ rest
  | .member name, h => ⟨_, .member Text.isBlank_nil h, fun rest => by simp [Step.put]⟩
  | .index i, h => by
    obtain ⟨t, ht, hput⟩ := Index.exists_indexValue_put i h
    refine ⟨_, .index Text.isBlank_nil ht Text.isBlank_nil, fun rest => ?_⟩
    simp [Step.put, hput]

theorem Index.exists_indexValue_put : ∀ i : Index, i.Writable →
    ∃ t, Grammar.IndexValue t i ∧ ∀ rest, i.put rest = t ++ rest
  | .expr e, h => by
    obtain ⟨t, ht, hput⟩ := Expr.exists_expression_put e h
    exact ⟨t, .expr ht, hput⟩
  | .num n, _ => ⟨_, .num (Numeral.isNumeral_text n), fun _ => rfl⟩
  | .property name, _ => ⟨_, .property (Quoted.isQuoted_encode name.toList), fun _ => rfl⟩

end

/-- An expression that can be written is written in brackets, as the grammar asks. -/
theorem Statement.enclosed_text {e : Expr} (h : e.Writable) :
    Grammar.Enclosed (expression e).text.toList e := by
  obtain ⟨t, ht, hput⟩ := e.exists_expression_put h
  refine ⟨[], t, [], ?_, Text.isBlank_nil, ht, Text.isBlank_nil⟩
  simp [Statement.text, Statement.chars, hput]

/-! ## What has been read can be written down -/

mutual

/-- The tree of an expression of the grammar can be written down. -/
theorem Grammar.Expression.writable : ∀ {e : Expr} {t : Text}, Expression t e → e.Writable
  | ⟨⟨_, _⟩, _⟩, _, .mk hname _ _ hargs _ hsteps => ⟨⟨hname, hargs.writable⟩, hsteps.writable⟩

/-- The arguments of a text can be written. -/
theorem Grammar.Arguments.writable : ∀ {args : List Argument} {t : Text}, Arguments t args →
    Argument.AllWritable args
  | [], _, .nil => trivial
  | _ :: _, _, .cons ha hargs => ⟨ha.writable, hargs.writable⟩

theorem Grammar.FurtherArguments.writable : ∀ {args : List Argument} {t : Text},
    FurtherArguments t args → Argument.AllWritable args
  | [], _, .nil => trivial
  | _ :: _, _, .cons _ _ ha hargs => ⟨ha.writable, hargs.writable⟩

theorem Grammar.Arg.writable : ∀ {a : Argument} {t : Text}, Arg t a → a.Writable
  | .expr _, _, .expr h => h.writable
  | .str _, _, _ => trivial
  | .num _, _, _ => trivial
  | .bool _, _, _ => trivial

theorem Grammar.Steps.writable : ∀ {xs : List Step} {t : Text}, Steps t xs → Step.AllWritable xs
  | [], _, .nil => trivial
  | _ :: _, _, .cons _ hx hxs => ⟨hx.writable, hxs.writable⟩

theorem Grammar.AccessStep.writable : ∀ {x : Step} {t : Text}, AccessStep t x → x.Writable
  | .member _, _, .member _ hname => hname
  | .index _, _, .index _ hi _ => hi.writable

theorem Grammar.IndexValue.writable : ∀ {i : Index} {t : Text}, IndexValue t i → i.Writable
  | .expr _, _, .expr h => h.writable
  | .num _, _, _ => trivial
  | .property _, _, _ => trivial

end

/-! ## Classification of literals -/

/-- A text is a plain literal exactly when it does not start with a bracket. -/
theorem classify_eq_stringLiteral {limit : Nat} {input text : String} :
    classify limit input = .ok (.stringLiteral text) ↔
      input = text ∧ input.toList.head? ≠ some '[' := by
  simp only [classify]
  constructor
  · intro h
    split at h
    next => cases h
    next => split at h <;> cases h
    next _ hne =>
      cases h
      refine ⟨rfl, fun hhead => ?_⟩
      obtain ⟨t, ht⟩ := List.head?_eq_some_iff.1 hhead
      exact hne t ht
  · rintro ⟨rfl, hhead⟩
    split
    next h => exact absurd (by rw [h]; rfl) hhead
    next _ h => exact absurd (by rw [h]; rfl) hhead
    next => rfl

/-- A text is an escaped literal exactly when it starts with two brackets, of which the first is
dropped. -/
theorem classify_eq_escapedLiteral {limit : Nat} {input text : String} :
    classify limit input = .ok (.escapedLiteral text) ↔
      input.toList = '[' :: text.toList ∧ text.toList.head? = some '[' := by
  simp only [classify]
  constructor
  · intro h
    split at h
    next s heq =>
      cases h
      rw [heq, String.toList_ofList]
      exact ⟨rfl, rfl⟩
    next => split at h <;> cases h
    next => cases h
  · rintro ⟨heq, hhead⟩
    obtain ⟨t, ht⟩ := List.head?_eq_some_iff.1 hhead
    rw [ht] at heq
    rw [heq]
    change Except.ok (Statement.escapedLiteral (String.ofList ('[' :: t))) = _
    rw [← ht, String.ofList_toList]

/-! ## Round trip -/

/-- What classification gives is well formed. -/
theorem wellFormed_of_classify {limit : Nat} {input : String} {statement : Statement}
    (h : classify limit input = .ok statement) : statement.WellFormed limit := by
  cases statement with
  | stringLiteral text =>
    obtain ⟨rfl, hhead⟩ := classify_eq_stringLiteral.1 h
    exact hhead
  | escapedLiteral text => exact (classify_eq_escapedLiteral.1 h).2
  | expression e =>
    obtain ⟨⟨_, _, _, _, _, ht, _⟩, hd⟩ := enclosed_of_classify h
    exact ⟨ht.writable, hd⟩

/-- The canonical text of a well-formed statement is classified as the statement. -/
theorem classify_text {limit : Nat} {statement : Statement} (h : statement.WellFormed limit) :
    classify limit statement.text = .ok statement := by
  cases statement with
  | stringLiteral text =>
    refine classify_eq_stringLiteral.2 ⟨String.ofList_toList, ?_⟩
    rw [Statement.text, Statement.chars, String.toList_ofList]
    exact h
  | escapedLiteral text =>
    refine classify_eq_escapedLiteral.2 ⟨?_, h⟩
    rw [Statement.text, Statement.chars, String.toList_ofList]
  | expression e => exact classify_of_enclosed (Statement.enclosed_text h.1) h.2

/-- Reading the canonical text of a statement gives the statement back exactly if it is well
formed. A tree that could be written down but nests too deeply is refused for its depth. -/
theorem classify_text_eq_self_iff (limit : Nat) (statement : Statement) :
    (classify limit statement.text = .ok statement ↔ statement.WellFormed limit) ∧
      ∀ e, statement = .expression e → e.Writable → limit < e.depth →
        ∃ d, classify limit statement.text = .error d ∧ d.kind = .maxDepthExceeded := by
  refine ⟨⟨wellFormed_of_classify, classify_text⟩, ?_⟩
  rintro e rfl he hd
  exact classify_of_enclosed_of_lt (Statement.enclosed_text he) hd

/-- The limits at and below the depth of a call in an index. -/
theorem classify_text_eq_self_iff_index :
    classify 2 "[f(-1, 'it''s').a[g.h()]]" =
        .ok (.expression ⟨⟨"f", [.num (-1), .str "it's"]⟩,
          [.member "a", .index (.expr ⟨⟨"g.h", []⟩, []⟩)]⟩) ∧
      ∃ d, classify 1 "[f(-1, 'it''s').a[g.h()]]" = .error d ∧ d.kind = .maxDepthExceeded := by
  have hf : IsFunctionName ['f'] := .plain (by decide) (by simp)
  have hg : IsFunctionName ['g', '.', 'h'] :=
    .dotted (w := []) (by decide) (by simp) ⟨by simp, List.all_eq_true.1 rfl⟩
  have ha : IsMemberName ['a'] := ⟨by simp, List.all_eq_true.1 rfl⟩
  have he : Expr.Writable ⟨⟨"f", [.num (-1), .str "it's"]⟩,
      [.member "a", .index (.expr ⟨⟨"g.h", []⟩, []⟩)]⟩ :=
    ⟨⟨hf, trivial, trivial, trivial⟩, ha, ⟨⟨hg, trivial⟩, trivial⟩, trivial⟩
  constructor
  · exact (classify_text_eq_self_iff 2 (.expression _)).1.2 ⟨he, by decide⟩
  · exact (classify_text_eq_self_iff 1 (.expression _)).2 _ rfl he (by decide)

end BracketExpr
