import BracketExpr.Tree.Basic

/-!
# Equality of trees

Equality of expressions and statements is decidable: two trees are compared node by node.
-/

namespace BracketExpr


mutual

/-- Decidable equality of expressions. -/
def Expr.decEq : (a b : Expr) → Decidable (a = b)
  | ⟨c, s⟩, ⟨d, t⟩ =>
    match Call.decEq c d, Step.decEqList s t with
    | isTrue h, isTrue k => isTrue (h ▸ k ▸ rfl)
    | isFalse h, _ => isFalse fun e => h (Expr.mk.inj e).1
    | _, isFalse k => isFalse fun e => k (Expr.mk.inj e).2

/-- Decidable equality of calls. -/
def Call.decEq : (a b : Call) → Decidable (a = b)
  | ⟨n, s⟩, ⟨m, t⟩ =>
    match decEq n m, Argument.decEqList s t with
    | isTrue h, isTrue k => isTrue (h ▸ k ▸ rfl)
    | isFalse h, _ => isFalse fun e => h (Call.mk.inj e).1
    | _, isFalse k => isFalse fun e => k (Call.mk.inj e).2

/-- Decidable equality of argument lists. -/
def Argument.decEqList : (a b : List Argument) → Decidable (a = b)
  | [], [] => isTrue rfl
  | [], _ :: _ => isFalse nofun
  | _ :: _, [] => isFalse nofun
  | x :: s, y :: t =>
    match Argument.decEq x y, Argument.decEqList s t with
    | isTrue h, isTrue k => isTrue (h ▸ k ▸ rfl)
    | isFalse h, _ => isFalse fun e => h (List.cons.inj e).1
    | _, isFalse k => isFalse fun e => k (List.cons.inj e).2

/-- Decidable equality of arguments. -/
def Argument.decEq : (a b : Argument) → Decidable (a = b)
  | .expr a, .expr b =>
    match Expr.decEq a b with
    | isTrue h => isTrue (h ▸ rfl)
    | isFalse h => isFalse fun e => h (Argument.expr.inj e)
  | .str a, .str b => decidable_of_iff (a = b) ⟨fun h => h ▸ rfl, Argument.str.inj⟩
  | .num a, .num b => decidable_of_iff (a = b) ⟨fun h => h ▸ rfl, Argument.num.inj⟩
  | .bool a, .bool b => decidable_of_iff (a = b) ⟨fun h => h ▸ rfl, Argument.bool.inj⟩
  | .expr _, .str _ | .expr _, .num _ | .expr _, .bool _ => isFalse nofun
  | .str _, .expr _ | .str _, .num _ | .str _, .bool _ => isFalse nofun
  | .num _, .expr _ | .num _, .str _ | .num _, .bool _ => isFalse nofun
  | .bool _, .expr _ | .bool _, .str _ | .bool _, .num _ => isFalse nofun

/-- Decidable equality of accessors. -/
def Step.decEqList : (a b : List Step) → Decidable (a = b)
  | [], [] => isTrue rfl
  | [], _ :: _ => isFalse nofun
  | _ :: _, [] => isFalse nofun
  | x :: s, y :: t =>
    match Step.decEq x y, Step.decEqList s t with
    | isTrue h, isTrue k => isTrue (h ▸ k ▸ rfl)
    | isFalse h, _ => isFalse fun e => h (List.cons.inj e).1
    | _, isFalse k => isFalse fun e => k (List.cons.inj e).2

/-- Decidable equality of steps. -/
def Step.decEq : (a b : Step) → Decidable (a = b)
  | .member a, .member b => decidable_of_iff (a = b) ⟨fun h => h ▸ rfl, Step.member.inj⟩
  | .index a, .index b =>
    match Index.decEq a b with
    | isTrue h => isTrue (h ▸ rfl)
    | isFalse h => isFalse fun e => h (Step.index.inj e)
  | .member _, .index _ | .index _, .member _ => isFalse nofun

/-- Decidable equality of indices. -/
def Index.decEq : (a b : Index) → Decidable (a = b)
  | .expr a, .expr b =>
    match Expr.decEq a b with
    | isTrue h => isTrue (h ▸ rfl)
    | isFalse h => isFalse fun e => h (Index.expr.inj e)
  | .num a, .num b => decidable_of_iff (a = b) ⟨fun h => h ▸ rfl, Index.num.inj⟩
  | .property a, .property b => decidable_of_iff (a = b) ⟨fun h => h ▸ rfl, Index.property.inj⟩
  | .expr _, .num _ | .expr _, .property _ => isFalse nofun
  | .num _, .expr _ | .num _, .property _ => isFalse nofun
  | .property _, .expr _ | .property _, .num _ => isFalse nofun

end

instance : DecidableEq Expr := Expr.decEq
instance : DecidableEq Call := Call.decEq
instance : DecidableEq Argument := Argument.decEq
instance : DecidableEq Step := Step.decEq
instance : DecidableEq Index := Index.decEq

deriving instance DecidableEq for Statement

end BracketExpr
