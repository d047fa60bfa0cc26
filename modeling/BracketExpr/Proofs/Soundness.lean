import BracketExpr.Proofs.Lexeme
import BracketExpr.Tree.Nesting
import BracketExpr.Tree.Reader

/-!
# What is read is in the grammar

Whatever the reader of a production takes is derived by the production, up to blanks around it,
with the tree that the reader gives and with no more levels of nesting than the limit allows.
Each production is treated for an arbitrary reader of nested expressions that has this property;
`Reader.expression` gets it by induction on the limit.
-/

namespace BracketExpr

namespace Reader

open Production

variable {α : Type}

/-- Whatever the reader takes is a text of `G` with the tree that the reader gives, and blanks
around it. -/
def Sound (r : Reader α) (G : Text → α → Prop) : Prop :=
  ∀ s a rest, r s = .done a rest →
    ∃ w₁ t w₂ : Text, s = w₁ ++ (t ++ (w₂ ++ rest)) ∧ w₁.IsBlank ∧ w₂.IsBlank ∧ G t a

/-- Expressions of the grammar that open at most `limit` levels of nesting. -/
def ExpressionWithin (limit : Nat) (s : Text) (e : Expr) : Prop :=
  Grammar.Expression s e ∧ e.depth ≤ limit

/-- What is skipped is blank. -/
theorem skipBlanks_eq_done {s rest : Text} {u : Unit} (h : skipBlanks s = .done u rest) :
    ∃ w : Text, w.IsBlank ∧ s = w ++ rest := by
  cases h
  exact Text.exists_blank_append s

/-- Blanks that are skipped after an item belong to the blanks around it. -/
theorem Sound.skipBlanks_after {r : Reader α} {G : Text → α → Prop} (h : r.Sound G) :
    Sound (do let a ← r; skipBlanks; return a) G := by
  intro s a rest hr
  obtain ⟨_, s₁, hr, hskip⟩ := bind_eq_done.1 hr
  obtain ⟨_, s₂, hskip, hpure⟩ := bind_eq_done.1 hskip
  cases hpure
  obtain ⟨w₁, t, w₂, rfl, hw₁, hw₂, hG⟩ := h s a s₁ hr
  obtain ⟨w, hw, rfl⟩ := skipBlanks_eq_done hskip
  exact ⟨w₁, t, w₂ ++ w, by simp, hw₁, hw₂.append hw, hG⟩

/-- Blanks that are skipped before an item belong to the blanks around it. -/
theorem Sound.skipBlanks_before {r : Reader α} {G : Text → α → Prop} (h : r.Sound G) :
    Sound (do skipBlanks; r) G := by
  intro s a rest hr
  obtain ⟨_, s₁, hskip, hitem⟩ := bind_eq_done.1 hr
  obtain ⟨w, hw, rfl⟩ := skipBlanks_eq_done hskip
  obtain ⟨w₁, t, w₂, rfl, hw₁, hw₂, hG⟩ := h s₁ a rest hitem
  exact ⟨w ++ w₁, t, w₂, by simp, hw.append hw₁, hw₂, hG⟩

/-! ## Arguments -/

section

variable {nested : Reader Expr} {limit : Nat}

/-- What an argument can be read as. -/
theorem argument_eq_done {s rest : Text} {a : Argument} (h : argument nested s = .done a rest) :
    (∃ n, number s = .done n rest ∧ a = .num n) ∨ (∃ v, quoted s = .done v rest ∧ a = .str v) ∨
      (∃ e, nested s = .done e rest ∧ a = .expr e) ∨
      ∃ b, boolean s = .done (some b) rest ∧ a = .bool b := by
  rw [argument, lex_current, bind_read_of_done (current_read s)] at h
  split at h
  next => cases h
  next c _ =>
    split at h
    · obtain ⟨n, mid, hn, hpure⟩ := bind_eq_done.1 h
      cases hpure
      exact .inl ⟨n, hn, rfl⟩
    · split at h
      · obtain ⟨v, mid, hv, hpure⟩ := bind_eq_done.1 h
        cases hpure
        exact .inr (.inl ⟨v, hv, rfl⟩)
      · rw [lex_atCall, bind_read_of_done (atCall_read s)] at h
        split at h
        · obtain ⟨e, mid, he, hpure⟩ := bind_eq_done.1 h
          cases hpure
          exact .inr (.inr (.inl ⟨e, he, rfl⟩))
        · obtain ⟨b?, mid, hb, h⟩ := bind_eq_done.1 h
          cases b? with
          | none => cases h
          | some b =>
            cases h
            exact .inr (.inr (.inr ⟨b, hb, rfl⟩))

/-- An argument that was read derives from its text, no deeper than the limit. -/
theorem argument_sound (hnested : nested.Sound (ExpressionWithin limit)) :
    (argument nested).Sound fun t a => Grammar.Arg t a ∧ a.depth ≤ limit := by
  intro s a rest h
  rcases argument_eq_done h with ⟨n, hn, rfl⟩ | ⟨v, hv, rfl⟩ | ⟨e, he, rfl⟩ | ⟨b, hb, rfl⟩
  · obtain ⟨t, rfl, ht⟩ := number_eq_done hn
    exact ⟨[], t, [], rfl, Text.isBlank_nil, Text.isBlank_nil, .num ht, Nat.zero_le _⟩
  · obtain ⟨t, rfl, ht⟩ := quoted_eq_done hv
    exact ⟨[], t, [], rfl, Text.isBlank_nil, Text.isBlank_nil, .str ht, Nat.zero_le _⟩
  · obtain ⟨w₁, t, w₂, rfl, hw₁, hw₂, ht, hd⟩ := hnested s e rest he
    exact ⟨w₁, t, w₂, rfl, hw₁, hw₂, .expr ht, hd⟩
  · obtain rfl := boolean_eq_some hb
    exact ⟨[], booleanText b, [], rfl, Text.isBlank_nil, Text.isBlank_nil, .bool b, Nat.zero_le _⟩

/-- A chain of arguments, in front of which blanks may stand. -/
theorem furtherArguments_sound (hnested : nested.Sound (ExpressionWithin limit)) {s rest : Text}
    {args : List Argument} (h : chain (furtherArgument nested) s = .done args rest) :
    ∀ v : Text, v.IsBlank → ∃ t w : Text, v ++ s = t ++ (w ++ rest) ∧ w.IsBlank ∧
      Grammar.FurtherArguments t args ∧ Argument.maxDepth args ≤ limit := by
  refine chainFrom_done_induction (motive := fun s args rest => ∀ v : Text, v.IsBlank →
    ∃ t w : Text, v ++ s = t ++ (w ++ rest) ∧ w.IsBlank ∧ Grammar.FurtherArguments t args ∧
      Argument.maxDepth args ≤ limit) ?_ ?_ h
  · intro s v hv
    exact ⟨[], v, rfl, hv, .nil, Nat.zero_le _⟩
  · intro c s item a mid args rest hnext hitem ih v hv
    simp only [furtherArgument] at hnext
    split at hnext
    next hc =>
      cases hnext
      subst hc
      obtain ⟨w₁, t, w₂, rfl, hw₁, hw₂, ha, hd⟩ :=
        (argument_sound hnested).skipBlanks_after.skipBlanks_before s a mid hitem
      -- The blanks after this argument stand in front of the rest of the chain.
      obtain ⟨t', w, heq, hw, hargs, hd'⟩ := ih w₂ hw₂
      refine ⟨v ++ ',' :: (w₁ ++ (t ++ t')), w, ?_, hw, .cons hv hw₁ ha hargs, ?_⟩
      · simp [heq]
      · exact Nat.max_le.2 ⟨hd, hd'⟩
    next => cases hnext

/-- Arguments that were read derive from their text, each no deeper than the limit. -/
theorem arguments_sound (hnested : nested.Sound (ExpressionWithin limit)) :
    (arguments nested).Sound fun t args =>
      Grammar.Arguments t args ∧ Argument.maxDepth args ≤ limit := by
  intro s args rest h
  obtain ⟨a, s₁, rfirst, h⟩ := bind_eq_done.1 h
  obtain ⟨_, s₂, rskip, h⟩ := bind_eq_done.1 h
  obtain ⟨args', s₃, rfurther, hpure⟩ := bind_eq_done.1 h
  cases hpure
  obtain ⟨w₁, t, w₂, rfl, hw₁, hw₂, ha, hd⟩ := argument_sound hnested s a s₁ rfirst
  obtain ⟨w, hw, rfl⟩ := skipBlanks_eq_done rskip
  obtain ⟨t', w', heq, hw', hargs, hd'⟩ :=
    furtherArguments_sound hnested rfurther (w₂ ++ w) (hw₂.append hw)
  refine ⟨w₁, t ++ t', w', ?_, hw₁, hw', .cons ha hargs, Nat.max_le.2 ⟨hd, hd'⟩⟩
  simp only [List.append_assoc] at heq ⊢
  rw [heq]

theorem argumentList_sound (hnested : nested.Sound (ExpressionWithin limit)) :
    (argumentList nested).Sound fun t args =>
      Grammar.Arguments t args ∧ Argument.maxDepth args ≤ limit := by
  intro s args rest h
  rw [argumentList, lex_current, bind_read_of_done (current_read s)] at h
  have hnil : ∃ w₁ t w₂ : Text, s = w₁ ++ (t ++ (w₂ ++ s)) ∧ w₁.IsBlank ∧ w₂.IsBlank ∧
      Grammar.Arguments t [] ∧ Argument.maxDepth [] ≤ limit :=
    ⟨[], [], [], rfl, Text.isBlank_nil, Text.isBlank_nil, .nil, Nat.zero_le _⟩
  split at h
  next =>
    cases h
    exact hnil
  next c _ =>
    split at h
    · cases h
      exact hnil
    · exact arguments_sound hnested s args rest h

/-! ## Calls -/

theorem calleeName_eq_done {s rest : Text} {name : String}
    (h : calleeName (m := Reader) s = .done name rest) :
    functionName s = .done (some name) rest := by
  obtain ⟨name?, mid, hname, h⟩ := bind_eq_done.1 h
  cases name? with
  | none =>
    rw [lex_current, bind_read_of_done (current_read mid)] at h
    split at h <;> cases h
  | some name' =>
    cases h
    exact hname

/-- A call is read as an expression without its steps. -/
theorem call_sound (hnested : nested.Sound (ExpressionWithin limit)) {s rest : Text} {c : Call}
    (h : call nested s = .done c rest) :
    ∃ w₁ w₂ a w₃ : Text, s = c.name.toList ++ (w₁ ++ '(' :: (w₂ ++ (a ++ (w₃ ++ ')' :: rest)))) ∧
      IsFunctionName c.name.toList ∧ w₁.IsBlank ∧ w₂.IsBlank ∧ w₃.IsBlank ∧
      Grammar.Arguments a c.args ∧ c.depth ≤ limit := by
  obtain ⟨name, s₁, rname, h⟩ := bind_eq_done.1 h
  obtain ⟨_, s₂, rskip₁, h⟩ := bind_eq_done.1 h
  obtain ⟨_, s₃, ropen, h⟩ := bind_eq_done.1 h
  obtain ⟨_, s₄, rskip₂, h⟩ := bind_eq_done.1 h
  obtain ⟨args, s₅, rargs, h⟩ := bind_eq_done.1 h
  obtain ⟨_, s₆, rskip₃, h⟩ := bind_eq_done.1 h
  obtain ⟨_, s₇, rclose, hpure⟩ := bind_eq_done.1 h
  cases hpure
  -- What was read, from left to right, puts the text together again.
  obtain ⟨hname, rfl⟩ := functionName_eq_some (calleeName_eq_done rname)
  obtain ⟨w₁, hw₁, rfl⟩ := skipBlanks_eq_done rskip₁
  obtain rfl := expect_eq_done.1 ropen
  obtain ⟨w₂, hw₂, rfl⟩ := skipBlanks_eq_done rskip₂
  obtain ⟨v₁, a, v₂, rfl, hv₁, hv₂, hargs, hd⟩ := argumentList_sound hnested s₄ args s₅ rargs
  obtain ⟨w₃, hw₃, rfl⟩ := skipBlanks_eq_done rskip₃
  obtain rfl := expect_eq_done.1 rclose
  refine ⟨w₁, w₂ ++ v₁, a, v₂ ++ w₃, ?_, hname, hw₁, hw₂.append hv₁, hv₂.append hw₃, hargs, hd⟩
  simp

/-! ## Steps -/

/-- What an index can be read as. -/
theorem index_eq_done {s rest : Text} {i : Index} (h : index nested s = .done i rest) :
    (∃ e, nested s = .done e rest ∧ i = .expr e) ∨ (∃ n, number s = .done n rest ∧ i = .num n) ∨
      ∃ v, quoted s = .done v rest ∧ i = .property v := by
  rw [index, lex_current, bind_read_of_done (current_read s)] at h
  split at h
  next => cases h
  next c _ =>
    rw [lex_atCall, bind_read_of_done (atCall_read s)] at h
    split at h
    · obtain ⟨e, mid, he, hpure⟩ := bind_eq_done.1 h
      cases hpure
      exact .inl ⟨e, he, rfl⟩
    · split at h
      · obtain ⟨n, mid, hn, hpure⟩ := bind_eq_done.1 h
        cases hpure
        exact .inr (.inl ⟨n, hn, rfl⟩)
      · split at h
        · obtain ⟨v, mid, hv, hpure⟩ := bind_eq_done.1 h
          cases hpure
          exact .inr (.inr ⟨v, hv, rfl⟩)
        · cases h

theorem index_sound (hnested : nested.Sound (ExpressionWithin limit)) :
    (index nested).Sound fun t i => Grammar.IndexValue t i ∧ i.depth ≤ limit := by
  intro s i rest h
  rcases index_eq_done h with ⟨e, he, rfl⟩ | ⟨n, hn, rfl⟩ | ⟨v, hv, rfl⟩
  · obtain ⟨w₁, t, w₂, rfl, hw₁, hw₂, ht, hd⟩ := hnested s e rest he
    exact ⟨w₁, t, w₂, rfl, hw₁, hw₂, .expr ht, hd⟩
  · obtain ⟨t, rfl, ht⟩ := number_eq_done hn
    exact ⟨[], t, [], rfl, Text.isBlank_nil, Text.isBlank_nil, .num ht, Nat.zero_le _⟩
  · obtain ⟨t, rfl, ht⟩ := quoted_eq_done hv
    exact ⟨[], t, [], rfl, Text.isBlank_nil, Text.isBlank_nil, .property ht, Nat.zero_le _⟩

/-- A member step, given what stands after its point. -/
theorem memberStep_sound {s rest : Text} {x : Step}
    (h : memberStep (m := Reader) s = .done x rest) :
    ∃ t, '.' :: s = t ++ rest ∧ Grammar.AccessStep t x ∧ x.depth = 0 := by
  obtain ⟨_, s₁, rskip, h⟩ := bind_eq_done.1 h
  obtain ⟨name?, s₂, rname, h⟩ := bind_eq_done.1 h
  cases name? with
  | none => cases h
  | some name =>
    cases h
    obtain ⟨w, hw, rfl⟩ := skipBlanks_eq_done rskip
    obtain ⟨hname, rfl⟩ := memberName_eq_some rname
    exact ⟨'.' :: (w ++ name.toList), by simp, .member hw hname, rfl⟩

/-- An index step, given what stands after its opening bracket. -/
theorem indexStep_sound (hnested : nested.Sound (ExpressionWithin limit)) {s rest : Text}
    {x : Step} (h : indexStep nested s = .done x rest) :
    ∃ t, '[' :: s = t ++ rest ∧ Grammar.AccessStep t x ∧ x.depth ≤ limit := by
  obtain ⟨_, s₁, rskip₁, h⟩ := bind_eq_done.1 h
  obtain ⟨i, s₂, rindex, h⟩ := bind_eq_done.1 h
  obtain ⟨_, s₃, rskip₂, h⟩ := bind_eq_done.1 h
  obtain ⟨_, s₄, rclose, hpure⟩ := bind_eq_done.1 h
  cases hpure
  obtain ⟨w, hw, rfl⟩ := skipBlanks_eq_done rskip₁
  obtain ⟨v₁, t, v₂, rfl, hv₁, hv₂, hi, hd⟩ := index_sound hnested s₁ i s₂ rindex
  obtain ⟨w', hw', rfl⟩ := skipBlanks_eq_done rskip₂
  obtain rfl := expect_eq_done.1 rclose
  exact ⟨'[' :: (w ++ v₁ ++ (t ++ (v₂ ++ w' ++ [']']))), by simp,
    .index (hw.append hv₁) hi (hv₂.append hw'), hd⟩

/-- What opens a further step is read as one, with blanks after it. -/
theorem furtherStep_sound (hnested : nested.Sound (ExpressionWithin limit)) {c : Char}
    {item : Reader Step} (hnext : furtherStep nested c = some item) {s rest : Text} {x : Step}
    (h : item s = .done x rest) :
    ∃ t w : Text, c :: s = t ++ (w ++ rest) ∧ w.IsBlank ∧ Grammar.AccessStep t x ∧
      x.depth ≤ limit := by
  simp only [furtherStep] at hnext
  split at hnext
  next hc =>
    cases hnext
    obtain ⟨_, s₁, rstep, h⟩ := bind_eq_done.1 h
    obtain ⟨_, s₂, rskip, hpure⟩ := bind_eq_done.1 h
    cases hpure
    obtain ⟨t, ht, hx, hd⟩ := memberStep_sound rstep
    obtain ⟨w, hw, rfl⟩ := skipBlanks_eq_done rskip
    exact ⟨t, w, hc ▸ ht, hw, hx, by omega⟩
  next =>
    split at hnext
    next hc =>
      cases hnext
      obtain ⟨_, s₁, rstep, h⟩ := bind_eq_done.1 h
      obtain ⟨_, s₂, rskip, hpure⟩ := bind_eq_done.1 h
      cases hpure
      obtain ⟨t, ht, hx, hd⟩ := indexStep_sound hnested rstep
      obtain ⟨w, hw, rfl⟩ := skipBlanks_eq_done rskip
      exact ⟨t, w, hc ▸ ht, hw, hx, hd⟩
    next => cases hnext

/-- A chain of steps, in front of which blanks may stand. -/
theorem steps_sound (hnested : nested.Sound (ExpressionWithin limit)) {s rest : Text}
    {xs : List Step} (h : steps nested s = .done xs rest) :
    ∀ v : Text, v.IsBlank → ∃ t w : Text, v ++ s = t ++ (w ++ rest) ∧ w.IsBlank ∧
      Grammar.Steps t xs ∧ Step.maxDepth xs ≤ limit := by
  refine chainFrom_done_induction (motive := fun s xs rest => ∀ v : Text, v.IsBlank →
    ∃ t w : Text, v ++ s = t ++ (w ++ rest) ∧ w.IsBlank ∧ Grammar.Steps t xs ∧
      Step.maxDepth xs ≤ limit) ?_ ?_ h
  · intro s v hv
    exact ⟨[], v, rfl, hv, .nil, Nat.zero_le _⟩
  · intro c s item x mid xs rest hnext hitem ih v hv
    obtain ⟨t, w, ht, hw, hx, hd⟩ := furtherStep_sound hnested hnext hitem
    -- As for arguments, the blanks after a step stand in front of the next one.
    obtain ⟨t', w', heq, hw', hxs, hd'⟩ := ih w hw
    refine ⟨v ++ (t ++ t'), w', ?_, hw', .cons hv hx hxs, Nat.max_le.2 ⟨hd, hd'⟩⟩
    rw [ht, heq]
    simp

end

/-! ## Expressions -/

/-- What is read under a limit is an expression of the grammar that keeps to the limit. -/
theorem expression_sound (limit : Nat) : (expression limit).Sound (ExpressionWithin limit) := by
  induction limit with
  | zero =>
    intro s e rest h
    cases h
  | succ limit ih =>
    intro s e rest h
    rw [expression, delay_read] at h
    obtain ⟨_, s₁, hskip₁, h⟩ := bind_eq_done.1 h
    obtain ⟨⟨name, args⟩, s₂, hcall, h⟩ := bind_eq_done.1 h
    obtain ⟨_, s₃, hskip₂, h⟩ := bind_eq_done.1 h
    obtain ⟨xs, s₄, hsteps, hpure⟩ := bind_eq_done.1 h
    cases hpure
    obtain ⟨w, hw, rfl⟩ := skipBlanks_eq_done hskip₁
    obtain ⟨w₁, w₂, a, w₃, rfl, hname, hw₁, hw₂, hw₃, hargs, hd⟩ := call_sound ih hcall
    obtain ⟨v, hv, rfl⟩ := skipBlanks_eq_done hskip₂
    obtain ⟨t, w', heq, hw', hxs, hd'⟩ := steps_sound ih hsteps v hv
    refine ⟨w, _, w', ?_, hw, hw', .mk hname hw₁ hw₂ hargs hw₃ hxs, ?_⟩
    · simp [heq]
    · exact Nat.succ_le_succ (Nat.max_le.2 ⟨hd, hd'⟩)

end Reader

end BracketExpr
