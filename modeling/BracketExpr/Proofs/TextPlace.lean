import BracketExpr.Tree.Basic

/-!
# Trees with a place for a text

A tree with a place is a tree in which one leaf is left open: a quoted argument, or the property
name of an index. It is a tree for every text that is put there, and the trees for two texts differ
in the one leaf.
-/

namespace BracketExpr

variable {α : Type}

mutual

/-- An expression with a place for one text: in one argument of its call, or in one index. -/
inductive Expr.Place where
  | argument (name : String) (before : List Argument) (place : Argument.Place)
    (after : List Argument) (accessor : List Step)
  | index (call : Call) (before : List Step) (place : Index.Place) (after : List Step)

/-- An argument that is the place for a text, or an expression that has it. -/
inductive Argument.Place where
  | here
  | nested (place : Expr.Place)

/-- An index that is the place for a text, as a property name, or an expression that has it. -/
inductive Index.Place where
  | here
  | nested (place : Expr.Place)

end

mutual

/-- The expression with the text `v` in its place. -/
def Expr.Place.fill : Expr.Place → String → Expr
  | .argument name before place after accessor, v =>
    ⟨⟨name, before ++ place.fill v :: after⟩, accessor⟩
  | .index call before place after, v => ⟨call, before ++ .index (place.fill v) :: after⟩

/-- The argument with the text `v` in its place. -/
def Argument.Place.fill : Argument.Place → String → Argument
  | .here, v => .str v
  | .nested place, v => .expr (place.fill v)

/-- The index with the text `v` in its place. -/
def Index.Place.fill : Index.Place → String → Index
  | .here, v => .property v
  | .nested place, v => .expr (place.fill v)

end

/-! ## Values that hold a text in one place

A value that is read behind the quotes depends on the text between them. The predicates say that it
does so by holding the text in one place. -/

/-- Nothing holds the text: what is read is over before the quotes. -/
def HoldsNone (_ : String → α) : Prop :=
  False

/-- One member of the list holds the text. -/
def HoldsOne (P : (String → α) → Prop) (as : String → List α) : Prop :=
  ∃ before a after, P a ∧ as = fun v => before ++ a v :: after

/-- The element in front holds the text, and the others do not depend on it. -/
theorem HoldsOne.cons_left {P : (String → α) → Prop} {a : String → α} (h : P a) (as : List α) :
    HoldsOne P fun v => a v :: as :=
  ⟨[], a, as, h, rfl⟩

/-- An element that does not depend on the text may stand in front. -/
theorem HoldsOne.cons_right {P : (String → α) → Prop} {as : String → List α} (h : HoldsOne P as)
    (a : α) : HoldsOne P fun v => a :: as v := by
  obtain ⟨before, a', after, ha', rfl⟩ := h
  exact ⟨a :: before, a', after, ha', rfl⟩

/-- The expression holds the text in its place. -/
def Expr.Holds (e : String → Expr) : Prop :=
  ∃ place : Expr.Place, e = place.fill

/-- The argument holds the text in its place. -/
def Argument.Holds (a : String → Argument) : Prop :=
  ∃ place : Argument.Place, a = place.fill

/-- One argument of the call holds the text. -/
def Call.Holds (c : String → Call) : Prop :=
  ∃ name args, HoldsOne Argument.Holds args ∧ c = fun v => ⟨name, args v⟩

/-- The index holds the text in its place. -/
def Index.Holds (i : String → Index) : Prop :=
  ∃ place : Index.Place, i = place.fill

/-- The step is an index step that holds the text. -/
def Step.Holds (x : String → Step) : Prop :=
  ∃ i, Index.Holds i ∧ x = fun v => .index (i v)

/-- An expression holds the text in its call, with steps that do not depend on it. -/
theorem Expr.Holds.of_call {c : String → Call} (h : Call.Holds c) (xs : List Step) :
    Expr.Holds fun v => ⟨c v, xs⟩ := by
  obtain ⟨name, _, ⟨before, _, after, ⟨place, rfl⟩, rfl⟩, rfl⟩ := h
  exact ⟨.argument name before place after xs, rfl⟩

/-- An expression holds the text in one of its steps, behind a call that does not depend on it. -/
theorem Expr.Holds.of_steps (c : Call) {xs : String → List Step} (h : HoldsOne Step.Holds xs) :
    Expr.Holds fun v => ⟨c, xs v⟩ := by
  obtain ⟨before, _, after, ⟨_, ⟨place, rfl⟩, rfl⟩, rfl⟩ := h
  exact ⟨.index c before place after, rfl⟩

end BracketExpr
