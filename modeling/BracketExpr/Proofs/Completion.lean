import BracketExpr.Proofs.DiagnosticPlace
import BracketExpr.Proofs.Recognition

/-!
# Faults stand behind a text that can be completed

A fault is met at the first point of failure: what stands before it can be completed to an
expression. Nothing is read again for this. The parts of a production that have been read are in the
grammar, the part that failed is completed by a shortest text of its own, and the completed text is
classified as an expression because the grammar derives it. So it does not matter that other
characters now follow the point at which the reader looked ahead.
-/

namespace BracketExpr

variable {α β : Type}

/-- Behind blanks, the text starts a text of `G`. -/
def Text.Starts (G : Text → α → Prop) (u : Text) : Prop :=
  ∃ w v t a, u = w ++ v ∧ IsBlank w ∧ G (v ++ t) a

theorem Text.Starts.of_nil_append {G : Text → α → Prop} {t : Text} {a : α} (h : G t a) :
    Starts G [] :=
  ⟨[], [], t, a, rfl, isBlank_nil, h⟩

/-- Blanks may stand in front of what starts. -/
theorem Text.Starts.blank_append {G : Text → α → Prop} {w u : Text} (hw : w.IsBlank)
    (h : u.Starts G) : Starts G (w ++ u) := by
  obtain ⟨v, u', t, a, rfl, hv, hG⟩ := h
  exact ⟨w ++ v, u', t, a, by simp, hw.append hv, hG⟩

namespace Reader

open Production

/-- Blanks are skipped without fail. -/
theorem skipBlanks_bind_eq_failed {f : Unit → Reader α} {s rest : Text} {fault : Fault}
    (h : (skipBlanks >>= f) s = .failed fault rest) :
    ∃ w mid : Text, w.IsBlank ∧ s = w ++ mid ∧ f () mid = .failed fault rest := by
  rw [bind_read_of_done (skipBlanks_read s)] at h
  obtain ⟨w, hw, hskip⟩ := s.exists_blank_append
  exact ⟨w, s.skipBlanks, hw, hskip, h⟩

/-- Wherever the reader fails, it has passed the start of a text of `G`. -/
def FailsInside (r : Reader α) (G : Text → α → Prop) : Prop :=
  ∀ s fault rest, r s = .failed fault rest → ∃ u : Text, s = u ++ fault.rest ∧ u.Starts G

/-- As `FailsInside`, but the reader may also fail where it stands, with no text of `G` in view. A
reader of expressions does so when no further level may be opened. -/
def FailsAtStartOrInside (r : Reader α) (G : Text → α → Prop) : Prop :=
  ∀ s fault rest, r s = .failed fault rest →
    fault.rest = s ∨ ∃ u : Text, s = u ++ fault.rest ∧ u.Starts G

/-- Skipping blanks behind an item adds no fault. -/
theorem FailsInside.skipBlanks_after {r : Reader α} {G : Text → α → Prop} (h : r.FailsInside G) :
    FailsInside (do let a ← r; skipBlanks; return a) G := by
  intro s fault rest hr
  rcases bind_eq_failed.1 hr with hr | ⟨a, mid, -, hr⟩
  · exact h s fault rest hr
  · obtain ⟨_, _, _, _, hpure⟩ := skipBlanks_bind_eq_failed hr
    cases hpure

/-- Blanks that are skipped in front of an item stand in front of its start. -/
theorem FailsInside.skipBlanks_before {r : Reader α} {G : Text → α → Prop} (h : r.FailsInside G) :
    FailsInside (do skipBlanks; r) G := by
  intro s fault rest hr
  obtain ⟨w, mid, hw, rfl, hr'⟩ := skipBlanks_bind_eq_failed hr
  obtain ⟨u, rfl, hu⟩ := h mid fault rest hr'
  exact ⟨w ++ u, by simp, hu.blank_append hw⟩

/-! ## Arguments -/

/-- The shortest number, which completes arguments and indices. -/
theorem isNumeral_one : IsNumeral ['1'] 1 :=
  .natural ⟨by simp, List.all_eq_true.1 rfl⟩ rfl

section

variable {nested : Reader Expr} {limit : Nat}

/-- Where nothing of an argument has been read, a number completes the text. -/
theorem starts_arg_nil (limit : Nat) :
    Text.Starts (fun t a => Grammar.Arg t a ∧ a.depth ≤ limit) [] :=
  .of_nil_append ⟨.num isNumeral_one, Nat.zero_le _⟩

/-- Where the reading of an argument fails, what was read starts an argument. -/
theorem argument_failsInside (hnested : nested.FailsAtStartOrInside (ExpressionWithin limit)) :
    (argument nested).FailsInside fun t a => Grammar.Arg t a ∧ a.depth ≤ limit := by
  intro s fault rest h
  rcases argument_eq_failed h with
    ⟨-, rfl⟩ | ⟨c, t, -, -, hn⟩ | ⟨t, rfl, hq⟩ | ⟨-, he⟩ | ⟨-, rfl⟩
  · exact ⟨[], rfl, starts_arg_nil limit⟩
  · obtain rfl := number_eq_failed hn
    exact ⟨[], rfl, starts_arg_nil limit⟩
  · obtain rfl := quoted_eq_failed hq
    exact ⟨[], rfl, starts_arg_nil limit⟩
  · rcases hnested s fault rest he with hs | ⟨u, hs, w, v, t, e, hu, hw, ht, hd⟩
    · exact ⟨[], hs.symm, starts_arg_nil limit⟩
    · exact ⟨u, hs, w, v, t, .expr e, hu, hw, .expr ht, hd⟩
  · exact ⟨[], rfl, starts_arg_nil limit⟩

/-- A chain of arguments, in front of which blanks may stand. -/
theorem furtherArguments_failed (hnested : nested.Sound (ExpressionWithin limit))
    (hfails : nested.FailsAtStartOrInside (ExpressionWithin limit)) {s rest : Text} {fault : Fault}
    (h : chain (furtherArgument nested) s = .failed fault rest) :
    ∀ v : Text, v.IsBlank → ∃ (u t : Text) (args : List Argument), v ++ s = u ++ fault.rest ∧
      Grammar.FurtherArguments (u ++ t) args ∧ Argument.maxDepth args ≤ limit := by
  refine chainFrom_failed_induction (motive := fun s fault => ∀ v : Text, v.IsBlank →
    ∃ (u t : Text) (args : List Argument), v ++ s = u ++ fault.rest ∧
      Grammar.FurtherArguments (u ++ t) args ∧ Argument.maxDepth args ≤ limit) ?_ ?_ h
  · intro c s item fault rest hnext hitem v hv
    simp only [furtherArgument] at hnext
    split at hnext
    next hc =>
      cases hnext
      subst hc
      obtain ⟨_, rfl, w, u, t, a, rfl, hw, ha, hd⟩ :=
        (argument_failsInside hfails).skipBlanks_after.skipBlanks_before s fault rest hitem
      refine ⟨v ++ ',' :: (w ++ u), t, [a], by simp, ?_, Nat.max_le.2 ⟨hd, Nat.zero_le _⟩⟩
      have hargs := Grammar.FurtherArguments.cons hv hw ha .nil
      simpa using hargs
    next => cases hnext
  · intro c s item a mid fault hnext hitem ih v hv
    simp only [furtherArgument] at hnext
    split at hnext
    next hc =>
      cases hnext
      subst hc
      obtain ⟨w₁, t₁, w₂, rfl, hw₁, hw₂, ha, hd⟩ :=
        (argument_sound hnested).skipBlanks_after.skipBlanks_before s a mid hitem
      obtain ⟨u, t, args, heq, hargs, hd'⟩ := ih w₂ hw₂
      refine ⟨v ++ ',' :: (w₁ ++ (t₁ ++ u)), t, a :: args, by simp [heq], ?_,
        Nat.max_le.2 ⟨hd, hd'⟩⟩
      have hargs' := Grammar.FurtherArguments.cons hv hw₁ ha hargs
      simpa using hargs'
    next => cases hnext

/-- Where the reading of arguments fails, what was read starts a list of arguments. -/
theorem arguments_failsInside (hnested : nested.Sound (ExpressionWithin limit))
    (hfails : nested.FailsAtStartOrInside (ExpressionWithin limit)) :
    (arguments nested).FailsInside fun t args =>
      Grammar.Arguments t args ∧ Argument.maxDepth args ≤ limit := by
  intro s fault rest h
  rcases bind_eq_failed.1 h with hfirst | ⟨a, s₁, hfirst, h₁⟩
  · obtain ⟨_, rfl, w, u, t, a, rfl, hw, ha, hd⟩ :=
      argument_failsInside hfails s fault rest hfirst
    have hargs : Grammar.Arguments (u ++ t) [a] := by simpa using Grammar.Arguments.cons ha .nil
    exact ⟨_, rfl, w, u, t, [a], rfl, hw, hargs, Nat.max_le.2 ⟨hd, Nat.zero_le _⟩⟩
  · obtain ⟨w₁, t₁, w₂, rfl, hw₁, hw₂, ha, hd⟩ := argument_sound hnested s a s₁ hfirst
    obtain ⟨w, s₂, hw, rfl, h₂⟩ := skipBlanks_bind_eq_failed h₁
    rcases bind_eq_failed.1 h₂ with hfurther | ⟨args, _, -, hpure⟩
    · obtain ⟨u, t, args, heq, hargs, hd'⟩ :=
        furtherArguments_failed hnested hfails hfurther (w₂ ++ w) (hw₂.append hw)
      have hargs' : Grammar.Arguments (t₁ ++ u ++ t) (a :: args) := by
        simpa using Grammar.Arguments.cons ha hargs
      refine ⟨w₁ ++ (t₁ ++ u), ?_, w₁, _, t, _, rfl, hw₁, hargs', Nat.max_le.2 ⟨hd, hd'⟩⟩
      rw [List.append_assoc] at heq
      simp [heq]
    · cases hpure

/-- The same between the parentheses of a call, where there may be no argument. -/
theorem argumentList_failsInside (hnested : nested.Sound (ExpressionWithin limit))
    (hfails : nested.FailsAtStartOrInside (ExpressionWithin limit)) :
    (argumentList nested).FailsInside fun t args =>
      Grammar.Arguments t args ∧ Argument.maxDepth args ≤ limit := by
  intro s fault rest h
  rw [argumentList, lex_current, bind_read_of_done (current_read s)] at h
  split at h
  next => cases h
  next c _ =>
    split at h
    · cases h
    · exact arguments_failsInside hnested hfails s fault rest h

/-! ## Calls -/

/-- The shortest expression. -/
theorem expressionWithin_call_nil {c : Char} (hc : c.isAlpha) (limit : Nat) :
    ExpressionWithin (limit + 1) [c, '(', ')'] ⟨⟨String.ofList [c], []⟩, []⟩ := by
  have hname : IsFunctionName (String.ofList [c]).toList := by
    rw [String.toList_ofList]
    exact .plain hc (by simp)
  have h := Grammar.Expression.mk hname Text.isBlank_nil Text.isBlank_nil .nil Text.isBlank_nil .nil
  refine ⟨?_, ?_⟩
  · rw [String.toList_ofList] at h
    exact h
  · exact Nat.succ_le_succ (Nat.zero_le _)

/-- The ways in which a call fails: where its name, its opening or its closing parenthesis is
missing, or among its arguments. -/
theorem call_eq_failed {s rest : Text} {fault : Fault} (h : call nested s = .failed fault rest) :
    fault.rest = s ∨ ∃ (name : String) (w₁ s₂ : Text), s = name.toList ++ (w₁ ++ s₂) ∧
      IsFunctionName name.toList ∧ w₁.IsBlank ∧ (fault.rest = s₂ ∨ ∃ w₂ s₄ : Text,
        s₂ = '(' :: (w₂ ++ s₄) ∧ w₂.IsBlank ∧ (argumentList nested s₄ = .failed fault rest ∨
          ∃ args w₃ s₅, argumentList nested s₄ = .done args (w₃ ++ s₅) ∧ w₃.IsBlank ∧
            fault.rest = s₅)) := by
  rcases bind_eq_failed.1 h with hname | ⟨name, s₁, hname, h₁⟩
  · rcases calleeName_eq_failed hname with ⟨-, rfl⟩ | ⟨-, rfl⟩ <;> exact .inl rfl
  · obtain ⟨hname', rfl⟩ := functionName_eq_some (calleeName_eq_done hname)
    obtain ⟨w₁, s₂, hw₁, rfl, h₂⟩ := skipBlanks_bind_eq_failed h₁
    refine .inr ⟨name, w₁, s₂, rfl, hname', hw₁, ?_⟩
    rcases bind_eq_failed.1 h₂ with hopen | ⟨_, s₃, hopen, h₃⟩
    · obtain rfl := expect_eq_failed hopen
      exact .inl rfl
    · obtain rfl := expect_eq_done.1 hopen
      obtain ⟨w₂, s₄, hw₂, rfl, h₄⟩ := skipBlanks_bind_eq_failed h₃
      refine .inr ⟨w₂, s₄, rfl, hw₂, ?_⟩
      rcases bind_eq_failed.1 h₄ with hargs | ⟨args, s₅, hargs, h₅⟩
      · exact .inl hargs
      · obtain ⟨w₃, s₆, hw₃, rfl, h₆⟩ := skipBlanks_bind_eq_failed h₅
        rcases bind_eq_failed.1 h₆ with hclose | ⟨_, _, _, hpure⟩
        · obtain rfl := expect_eq_failed hclose
          exact .inr ⟨args, w₃, s₆, hargs, hw₃, rfl⟩
        · cases hpure

/-- A call fails inside of an expression that ends with it. -/
theorem call_failsInside (hnested : nested.Sound (ExpressionWithin limit))
    (hfails : nested.FailsAtStartOrInside (ExpressionWithin limit)) :
    (call nested).FailsInside fun t c => ExpressionWithin (limit + 1) t ⟨c, []⟩ := by
  intro s fault rest h
  rcases call_eq_failed h with hstart | ⟨name, w₁, s₂, rfl, hname, hw₁, hopen | h⟩
  · exact ⟨[], hstart.symm, .of_nil_append (expressionWithin_call_nil (c := 'f') (by decide) limit)⟩
  · have he := Grammar.Expression.mk hname hw₁ Text.isBlank_nil .nil Text.isBlank_nil .nil
    exact ⟨name.toList ++ w₁, by simp [hopen], [], _, ['(', ')'], ⟨name, []⟩, rfl,
      Text.isBlank_nil, by simpa using he, Nat.succ_le_succ (Nat.zero_le _)⟩
  · obtain ⟨w₂, s₄, rfl, hw₂, hargs | ⟨args, w₃, s₅, hargs, hw₃, hclose⟩⟩ := h
    · obtain ⟨_, rfl, w, u, t, args, rfl, hw, ha, hd⟩ :=
        argumentList_failsInside hnested hfails s₄ fault rest hargs
      have he := Grammar.Expression.mk hname hw₁ (hw₂.append hw) ha Text.isBlank_nil .nil
      exact ⟨name.toList ++ (w₁ ++ '(' :: (w₂ ++ (w ++ u))), by simp, [], _, t ++ [')'],
        ⟨name, args⟩, rfl, Text.isBlank_nil, by simpa using he,
        Nat.succ_le_succ (Nat.max_le.2 ⟨hd, Nat.zero_le _⟩)⟩
    · obtain ⟨v₁, a, v₂, rfl, hv₁, hv₂, ha, hd⟩ := argumentList_sound hnested s₄ args _ hargs
      have he := Grammar.Expression.mk hname hw₁ (hw₂.append hv₁) ha (hv₂.append hw₃) .nil
      exact ⟨name.toList ++ (w₁ ++ '(' :: (w₂ ++ (v₁ ++ (a ++ (v₂ ++ w₃))))), by simp [hclose], [],
        _, [')'], ⟨name, args⟩, rfl, Text.isBlank_nil, by simpa using he,
        Nat.succ_le_succ (Nat.max_le.2 ⟨hd, Nat.zero_le _⟩)⟩

/-! ## Steps -/

theorem starts_indexValue_nil (limit : Nat) :
    Text.Starts (fun t i => Grammar.IndexValue t i ∧ i.depth ≤ limit) [] :=
  .of_nil_append ⟨.num isNumeral_one, Nat.zero_le _⟩

theorem index_failsInside (hfails : nested.FailsAtStartOrInside (ExpressionWithin limit)) :
    (index nested).FailsInside fun t i => Grammar.IndexValue t i ∧ i.depth ≤ limit := by
  intro s fault rest h
  rcases index_eq_failed h with
    ⟨-, rfl⟩ | ⟨c, t, -, -, hn⟩ | ⟨t, rfl, hq⟩ | ⟨-, he⟩ | ⟨-, rfl⟩
  · exact ⟨[], rfl, starts_indexValue_nil limit⟩
  · obtain rfl := number_eq_failed hn
    exact ⟨[], rfl, starts_indexValue_nil limit⟩
  · obtain rfl := quoted_eq_failed hq
    exact ⟨[], rfl, starts_indexValue_nil limit⟩
  · rcases hfails s fault rest he with hs | ⟨u, hs, w, v, t, e, hu, hw, ht, hd⟩
    · exact ⟨[], hs.symm, starts_indexValue_nil limit⟩
    · exact ⟨u, hs, w, v, t, .expr e, hu, hw, .expr ht, hd⟩
  · exact ⟨[], rfl, starts_indexValue_nil limit⟩

/-- A member step fails at the name that is missing. -/
theorem memberStep_failed {s rest : Text} {fault : Fault}
    (h : memberStep (m := Reader) s = .failed fault rest) :
    ∃ u t x, '.' :: s = u ++ fault.rest ∧ Grammar.AccessStep (u ++ t) x ∧ x.depth = 0 := by
  obtain ⟨w, mid, hw, rfl, h₁⟩ := skipBlanks_bind_eq_failed h
  rcases bind_eq_failed.1 h₁ with hr | ⟨name?, mid', hname, hr⟩
  · exact (FaultsAt.lexeme (P := fun _ => False) _ _ _ _ hr).elim
  · cases name? with
    | some name => cases hr
    | none =>
      obtain rfl := lexeme_eq_none hname
      cases hr
      have hmember : IsMemberName "a".toList := ⟨by simp, List.all_eq_true.1 rfl⟩
      exact ⟨'.' :: w, ['a'], .member "a", rfl, .member hw hmember, rfl⟩

/-- Where the reading of an index step fails, the bracket can still be filled and closed. -/
theorem indexStep_failed (hnested : nested.Sound (ExpressionWithin limit))
    (hfails : nested.FailsAtStartOrInside (ExpressionWithin limit)) {s rest : Text} {fault : Fault}
    (h : indexStep nested s = .failed fault rest) :
    ∃ u t x, '[' :: s = u ++ fault.rest ∧ Grammar.AccessStep (u ++ t) x ∧ x.depth ≤ limit := by
  obtain ⟨w₁, s₁, hw₁, rfl, h₁⟩ := skipBlanks_bind_eq_failed h
  rcases bind_eq_failed.1 h₁ with hindex | ⟨i, s₂, hindex, h₂⟩
  · obtain ⟨_, rfl, w, u, t, i, rfl, hw, hi, hd⟩ := index_failsInside hfails s₁ fault rest hindex
    have hstep := Grammar.AccessStep.index (hw₁.append hw) hi Text.isBlank_nil
    exact ⟨'[' :: (w₁ ++ (w ++ u)), t ++ [']'], .index i, by simp, by simpa using hstep, hd⟩
  · obtain ⟨v₁, t, v₂, rfl, hv₁, hv₂, hi, hd⟩ := index_sound hnested s₁ i s₂ hindex
    obtain ⟨w₂, s₃, hw₂, rfl, h₃⟩ := skipBlanks_bind_eq_failed h₂
    rcases bind_eq_failed.1 h₃ with hclose | ⟨_, _, -, hpure⟩
    · obtain rfl := expect_eq_failed hclose
      have hstep := Grammar.AccessStep.index (hw₁.append hv₁) hi (hv₂.append hw₂)
      exact ⟨'[' :: (w₁ ++ (v₁ ++ (t ++ (v₂ ++ w₂)))), [']'], .index i, by simp [Fault.atStart],
        by simpa using hstep, hd⟩
    · cases hpure

/-- What opens a further step fails inside of a step. -/
theorem furtherStep_failed (hnested : nested.Sound (ExpressionWithin limit))
    (hfails : nested.FailsAtStartOrInside (ExpressionWithin limit)) {c : Char} {item : Reader Step}
    (hnext : furtherStep nested c = some item) {s rest : Text} {fault : Fault}
    (h : item s = .failed fault rest) :
    ∃ u t x, c :: s = u ++ fault.rest ∧ Grammar.AccessStep (u ++ t) x ∧ x.depth ≤ limit := by
  simp only [furtherStep] at hnext
  split at hnext
  next hc =>
    cases hnext
    subst hc
    rcases bind_eq_failed.1 h with hstep | ⟨x, mid, -, hskip⟩
    · obtain ⟨u, t, x, hs, hx, hd⟩ := memberStep_failed hstep
      exact ⟨u, t, x, hs, hx, by omega⟩
    · obtain ⟨_, _, _, _, hpure⟩ := skipBlanks_bind_eq_failed hskip
      cases hpure
  next =>
    split at hnext
    next hc =>
      cases hnext
      subst hc
      rcases bind_eq_failed.1 h with hstep | ⟨x, mid, -, hskip⟩
      · exact indexStep_failed hnested hfails hstep
      · obtain ⟨_, _, _, _, hpure⟩ := skipBlanks_bind_eq_failed hskip
        cases hpure
    next => cases hnext

/-- A chain of steps, in front of which blanks may stand. -/
theorem steps_failed (hnested : nested.Sound (ExpressionWithin limit))
    (hfails : nested.FailsAtStartOrInside (ExpressionWithin limit)) {s rest : Text} {fault : Fault}
    (h : steps nested s = .failed fault rest) :
    ∀ v : Text, v.IsBlank → ∃ (u t : Text) (xs : List Step), v ++ s = u ++ fault.rest ∧
      Grammar.Steps (u ++ t) xs ∧ Step.maxDepth xs ≤ limit := by
  refine chainFrom_failed_induction (motive := fun s fault => ∀ v : Text, v.IsBlank →
    ∃ (u t : Text) (xs : List Step), v ++ s = u ++ fault.rest ∧
      Grammar.Steps (u ++ t) xs ∧ Step.maxDepth xs ≤ limit) ?_ ?_ h
  · intro c s item fault rest hnext hitem v hv
    obtain ⟨u, t, x, hs, hx, hd⟩ := furtherStep_failed hnested hfails hnext hitem
    have hxs := Grammar.Steps.cons hv hx .nil
    refine ⟨v ++ u, t, [x], by simp [hs], by simpa using hxs, Nat.max_le.2 ⟨hd, Nat.zero_le _⟩⟩
  · intro c s item x mid fault hnext hitem ih v hv
    obtain ⟨t₁, w, ht, hw, hx, hd⟩ := furtherStep_sound hnested hnext hitem
    obtain ⟨u, t, xs, heq, hxs, hd'⟩ := ih w hw
    have hxs' := Grammar.Steps.cons hv hx hxs
    refine ⟨v ++ (t₁ ++ u), t, x :: xs, ?_, by simpa using hxs', Nat.max_le.2 ⟨hd, hd'⟩⟩
    rw [ht, heq]
    simp

end

/-! ## Expressions -/

/-- Once a level may be opened, an expression fails inside of an expression. -/
theorem expression_failsInside {limit : Nat}
    (hfails : (expression limit).FailsAtStartOrInside (ExpressionWithin limit)) :
    (expression (limit + 1)).FailsInside (ExpressionWithin (limit + 1)) := by
  have hnested := expression_sound limit
  intro s fault rest h
  rw [expression, delay_read] at h
  obtain ⟨w, s₁, hw, rfl, h₁⟩ := skipBlanks_bind_eq_failed h
  rcases bind_eq_failed.1 h₁ with hcall | ⟨⟨name, args⟩, s₂, hcall, h₂⟩
  · obtain ⟨_, rfl, v, u, t, c, rfl, hv, he⟩ := call_failsInside hnested hfails s₁ fault rest hcall
    exact ⟨w ++ (v ++ u), by simp, w ++ v, u, t, ⟨c, []⟩, by simp, hw.append hv, he⟩
  · obtain ⟨w₁, w₂, a, w₃, rfl, hname, hw₁, hw₂, hw₃, hargs, hd⟩ := call_sound hnested hcall
    obtain ⟨v, s₃, hv, rfl, h₃⟩ := skipBlanks_bind_eq_failed h₂
    rcases bind_eq_failed.1 h₃ with hsteps | ⟨xs, _, -, hpure⟩
    · obtain ⟨u, t, xs, heq, hxs, hd'⟩ := steps_failed hnested hfails hsteps v hv
      have he := Grammar.Expression.mk hname hw₁ hw₂ hargs hw₃ hxs
      exact ⟨w ++ (name.toList ++ (w₁ ++ '(' :: (w₂ ++ (a ++ (w₃ ++ ')' :: u))))), by simp [heq], w,
        _, t, ⟨⟨name, args⟩, xs⟩, rfl, hw, by simpa using he,
        Nat.succ_le_succ (Nat.max_le.2 ⟨hd, hd'⟩)⟩
    · cases hpure

/-- Under every limit, either nothing has been read of an expression or what was read starts one. -/
theorem expression_failsAtStartOrInside (limit : Nat) :
    (expression limit).FailsAtStartOrInside (ExpressionWithin limit) := by
  induction limit with
  | zero =>
    intro s fault rest h
    cases h
    exact .inl rfl
  | succ limit ih =>
    intro s fault rest h
    exact .inr (expression_failsInside ih s fault rest h)

/-- Where an enclosed expression fails, it has passed the start of one. -/
theorem enclosed_failed {limit : Nat} {s rest : Text} {fault : Fault}
    (h : enclosed (limit + 1) s = .failed fault rest) :
    ∃ (u t : Text) (e : Expr), s = u ++ fault.rest ∧
      Grammar.Enclosed ('[' :: (u ++ t)) e ∧ e.depth ≤ limit + 1 := by
  rcases enclosed_eq_failed h with hexpr | ⟨e, s₁, hexpr, h₁⟩
  · obtain ⟨_, rfl, w, u, t, e, rfl, hw, he, hd⟩ :=
      expression_failsInside (expression_failsAtStartOrInside limit) s fault rest hexpr
    exact ⟨w ++ u, t ++ [']'], e, rfl, ⟨w, u ++ t, [], by simp, hw, he, Text.isBlank_nil⟩, hd⟩
  · obtain ⟨w₁, t, w₂, rfl, hw₁, hw₂, he, hd⟩ := expression_sound (limit + 1) s e s₁ hexpr
    obtain ⟨w₃, hw₃, hskip⟩ := s₁.exists_blank_append
    have hclosed : Grammar.Enclosed ('[' :: (w₁ ++ (t ++ (w₂ ++ (w₃ ++ [']']))))) e :=
      ⟨w₁, t, w₂ ++ w₃, by simp, hw₁, he, hw₂.append hw₃⟩
    -- The closing bracket is missing, or it has been read and more text follows.
    rcases h₁ with ⟨hs₁, rfl⟩ | ⟨c, t', hs₁, -, rfl⟩ | ⟨c, t', hs₁, rfl⟩
    all_goals rw [hs₁] at hskip
    · exact ⟨w₁ ++ (t ++ (w₂ ++ w₃)), [']'], e, by simp [hskip, Fault.atStart],
        by simpa using hclosed, hd⟩
    · exact ⟨w₁ ++ (t ++ (w₂ ++ w₃)), [']'], e, by simp [hskip, Fault.atStart],
        by simpa using hclosed, hd⟩
    · exact ⟨w₁ ++ (t ++ (w₂ ++ (w₃ ++ [']']))), [], e, by simp [hskip, Fault.atStart],
        by simpa using hclosed, hd⟩

end Reader

/-- The text before the offset of a diagnostic can be completed to an expression that is classified
as one under the same limit. Where the whole input stands before the offset, the input can be. -/
theorem exists_completion_of_classify_eq_error {limit : Nat} (hlimit : 1 ≤ limit) {input : String}
    {d : Diagnostic} (h : classify limit input = .error d) :
    (∃ before after : String, input = before ++ after ∧ before.utf8ByteSize = d.offset ∧
      ∃ t e, classify limit (before ++ t) = .ok (.expression e)) ∧
      (d.offset = input.utf8ByteSize →
        ∃ t e, classify limit (input ++ t) = .ok (.expression e)) := by
  obtain ⟨limit, rfl⟩ : ∃ k, limit = k + 1 := ⟨limit - 1, by omega⟩
  obtain ⟨s, fault, rest, hinput, hread, rfl⟩ := classify_eq_error h
  obtain ⟨u, t, e, hs, henclosed, hd⟩ := Reader.enclosed_failed hread
  have hcompletion : classify (limit + 1) (String.ofList ('[' :: u) ++ String.ofList t) =
      .ok (.expression e) := by
    refine classify_of_enclosed ?_ hd
    rw [← String.ofList_append, String.toList_ofList]
    exact henclosed
  have hsplit : input = String.ofList ('[' :: u) ++ String.ofList fault.rest := by
    rw [← String.ofList_append, List.cons_append, ← hs, ← hinput, String.ofList_toList]
  have hoffset : (String.ofList ('[' :: u)).utf8ByteSize =
      ((Cursor.mk ['['] s).diagnose fault).offset := by
    rw [hs, Cursor.offset_diagnose, Text.byteLength_eq_utf8ByteSize]
    rfl
  refine ⟨⟨_, _, hsplit, hoffset, _, e, hcompletion⟩, fun hend => ⟨String.ofList t, e, ?_⟩⟩
  -- Nothing is left behind an offset at the end, so the completed text is the whole input.
  have hnil : fault.rest = [] := by
    rw [hsplit, String.utf8ByteSize_append, hoffset, ← Text.byteLength_eq_utf8ByteSize] at hend
    exact Text.byteLength_eq_zero.1 (by omega)
  rw [hnil] at hsplit
  rw [hsplit, String.append_assoc, show String.ofList [] = "" from rfl, String.empty_append]
  exact hcompletion

/-- An index inside of a second argument, with a word in it that calls nothing. -/
theorem exists_completion_of_classify_eq_error_index :
    1 ≤ 2 ∧ classify 2 "[f('it''s', a.b()[true" = .error ⟨.invalidIndexValue, 18, some "t"⟩ ∧
      ∃ before after : String, "[f('it''s', a.b()[true" = before ++ after ∧
        before.utf8ByteSize = 18 ∧
        ∃ t e, classify 2 (before ++ t) = .ok (.expression e) := by
  have h : classify 2 "[f('it''s', a.b()[true" = .error ⟨.invalidIndexValue, 18, some "t"⟩ := by
    decide +kernel
  exact ⟨by decide, h, (exists_completion_of_classify_eq_error (by decide) h).1⟩

end BracketExpr
