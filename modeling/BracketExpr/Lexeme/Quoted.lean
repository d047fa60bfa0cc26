import BracketExpr.Reader

/-!
# Quoted text

A quoted text stands between single quotes, and a quote inside it is written twice. Anything
else, line breaks included, stands for itself.
-/

namespace BracketExpr

namespace Quoted

/-- The written form of a text without the outer quotes: each quote is doubled. -/
def double : Text → Text
  | [] => []
  | c :: s => if c = '\x27' then '\x27' :: '\x27' :: double s else c :: double s

/-- The written form of a text: between quotes, with each quote inside doubled. -/
def encode (s : Text) : Text :=
  '\x27' :: (double s ++ ['\x27'])

/-- Reads the text up to the closing quote, given what stands after the opening one: the text it
stands for, and what is left after the closing quote. There is no such text if the closing quote
is missing. -/
def body : Text → Option (Text × Text)
  | [] => none
  | '\x27' :: '\x27' :: s => (body s).map fun p => ('\x27' :: p.1, p.2)
  | c :: s => if c = '\x27' then some ([], s) else (body s).map fun p => (c :: p.1, p.2)

/-- What stands behind a quoted text is the end of the text it was read from. -/
theorem suffix_of_body {s v rest : Text} (h : body s = some (v, rest)) : rest <:+ s := by
  fun_induction body s generalizing v with
  | case1 => simp at h
  | case2 s ih =>
    obtain ⟨⟨w, r⟩, hw, heq⟩ := Option.map_eq_some_iff.1 h
    obtain ⟨rfl, rfl⟩ := Prod.mk.inj heq
    exact ((ih hw).trans (List.suffix_cons _ s)).trans (List.suffix_cons _ _)
  | case3 s =>
    obtain ⟨rfl, rfl⟩ := Prod.mk.inj (Option.some.inj h)
    exact List.suffix_cons _ _
  | case4 c s _ _ ih =>
    obtain ⟨⟨w, r⟩, hw, heq⟩ := Option.map_eq_some_iff.1 h
    obtain ⟨rfl, rfl⟩ := Prod.mk.inj heq
    exact (ih hw).trans (List.suffix_cons c s)

end Quoted

namespace Reader

/-- Reads a quoted text. A missing closing quote is a fault at the opening one that shows all the
text from there on and takes it; where no quote opens a text, nothing is taken. -/
def quoted : Reader String where
  read
    | '\x27' :: s =>
      match Quoted.body s with
      | some (v, rest) => .done (String.ofList v) rest
      | none => .failed ⟨.unterminatedString, '\x27' :: s, some ('\x27' :: s)⟩ []
    | s => .failed (.atStart .invalidArgument s) s
  within s := by
    split
    · split
      next v rest h => exact (Quoted.suffix_of_body h).trans (List.suffix_cons _ _)
      next => exact ⟨List.nil_suffix, List.suffix_refl _⟩
    · exact ⟨List.suffix_refl _, List.suffix_refl _⟩

end Reader

end BracketExpr
