import BracketExpr.Cursor
import BracketExpr.Tree.Equality
import BracketExpr.Tree.Reader

/-!
# Classification

The first characters of a configuration value decide what it is. Two opening brackets mark an
escaped literal, whose text is what follows the first bracket. One opening bracket commits the
value to be an expression that ends with the value; it never falls back to a literal. Any other
value, the empty one included, stands for itself.
-/

namespace BracketExpr

/-- The nesting limit where none is given. -/
def defaultLimit : Nat := 256

instance decidableEqExcept {ε α : Type} [DecidableEq ε] [DecidableEq α] :
    DecidableEq (Except ε α)
  | .ok a, .ok b => decidable_of_iff (a = b) ⟨congrArg Except.ok, Except.ok.inj⟩
  | .error d, .error d' => decidable_of_iff (d = d') ⟨congrArg Except.error, Except.error.inj⟩
  | .ok _, .error _ => isFalse nofun
  | .error _, .ok _ => isFalse nofun

/-- What the configuration value `input` is, if its expressions open at most `limit` levels of
nesting. -/
def classify (limit : Nat) (input : String) : Except Diagnostic Statement :=
  match input.toList with
  | '[' :: '[' :: s => .ok (.escapedLiteral (String.ofList ('[' :: s)))
  | '[' :: s =>
    match (Cursor.mk ['['] s).run (Reader.enclosed limit) with
    | (.ok e, _) => .ok (.expression e)
    | (.error d, _) => .error d
  | _ => .ok (.stringLiteral input)

end BracketExpr
