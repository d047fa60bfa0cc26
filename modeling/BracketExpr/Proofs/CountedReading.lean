import BracketExpr.Proofs.Simulation
import BracketExpr.Tree.Reader

/-!
# Reading with a counter

The reader of expressions has the number of levels that may still be opened as its argument, so
nothing of one reading is left over for the next. Here the same productions are read with a counter
of the levels that are open, and under one limit; both are machine words, and counting wraps around.
The counter is handed on from one reading to the next, also from one that fails, so it matters that
each level that is opened is closed again.

Main statements: there is one counted reader of expressions that opens a level around itself, and it
agrees with `Reader.expression` at every count. The counter stands where it stood before, whether a
reading succeeds or fails.
-/

namespace BracketExpr

open Production (expressionOver)

variable {α β : Type}

/-- A reader that hands on a count. -/
@[ext]
structure CountedReader (α : Type) where
  /-- Reads a value from the start of a text at a count, and gives the count after that. -/
  read : UInt64 → Text → Reading α × UInt64
  /-- Reading keeps to the given text. -/
  within : ∀ n s, (read n s).1.Within s

namespace CountedReader

/-- A reader that leaves the count as it is. -/
def lift (r : Reader α) : CountedReader α where
  read n s := (r s, n)
  within _ s := r.within s

/-- Reads with `r`, then goes on with `f` at the count that `r` gives. -/
protected def bind (r : CountedReader α) (f : α → CountedReader β) : CountedReader β where
  read n s :=
    match r.read n s with
    | (.done a rest, m) => (f a).read m rest
    | (.failed fault rest, m) => (.failed fault rest, m)
  within n s := by
    have h := r.within n s
    split
    next a rest m heq => rw [heq] at h; exact ((f a).within m rest).of_suffix h
    next heq => rw [heq] at h; exact h

instance : Monad CountedReader where
  pure a := lift (pure a)
  bind := CountedReader.bind

/-- A sequence hands the count of its first part on to its second part. -/
theorem bind_read (r : CountedReader α) (f : α → CountedReader β) (n : UInt64) (s : Text) :
    (r >>= f).read n s =
      match r.read n s with
      | (.done a rest, m) => (f a).read m rest
      | (.failed fault rest, m) => (.failed fault rest, m) := rfl

/-- Reads items for as long as the next character opens one. -/
def chainFrom (next : Char → Option (CountedReader α)) (n : UInt64) :
    Text → Reading (List α) × UInt64
  | [] => (.done [] [], n)
  | c :: s =>
    match next c with
    | none => (.done [] (c :: s), n)
    | some item =>
      match _h : item.read n s with
      | (.failed fault rest, m) => (.failed fault rest, m)
      | (.done a rest, m) =>
        match chainFrom next m rest with
        | (.failed fault rest, m) => (.failed fault rest, m)
        | (.done as rest, m) => (.done (a :: as) rest, m)
termination_by s => s.length
decreasing_by
  have hw := item.within n s
  rw [_h] at hw
  exact Nat.lt_succ_of_le (List.IsSuffix.length_le hw)

/-- Chains keep to the given text, since each of their items does. -/
theorem chainFrom_within (next : Char → Option (CountedReader α)) (n : UInt64) (s : Text) :
    (chainFrom next n s).1.Within s := by
  fun_induction chainFrom next n s with
  | case1 => exact List.suffix_refl []
  | case2 => exact List.suffix_refl _
  | case3 n c s item _ fault rest m h =>
    have hw := item.within n s
    rw [h] at hw
    exact hw.of_suffix (List.suffix_cons c s)
  | case4 n c s item _ a rest m h fault rest' m' h' ih =>
    have hw := item.within n s
    rw [h] at hw
    rw [h'] at ih
    exact ih.of_suffix (List.IsSuffix.trans hw (List.suffix_cons c s))
  | case5 n c s item _ a rest m h as rest' m' h' ih =>
    have hw := item.within n s
    rw [h] at hw
    rw [h'] at ih
    exact ih.of_suffix (List.IsSuffix.trans hw (List.suffix_cons c s))

/-- The reader of a chain of items, each announced by its opening character. -/
def chain (next : Char → Option (CountedReader α)) : CountedReader (List α) where
  read := chainFrom next
  within := chainFrom_within next

/-- A chain whose next character opens an item goes on where the item ends. -/
theorem chainFrom_cons_of_some {next : Char → Option (CountedReader α)} {c : Char}
    {item : CountedReader α} (hnext : next c = some item) (n : UInt64) (s : Text) :
    chainFrom next n (c :: s) =
      match item.read n s with
      | (.failed fault rest, m) => (.failed fault rest, m)
      | (.done a mid, m) =>
        match chainFrom next m mid with
        | (.failed fault rest, m) => (.failed fault rest, m)
        | (.done as rest, m) => (.done (a :: as) rest, m) := by
  rw [chainFrom]
  split
  next h => rw [hnext] at h; cases h
  next item' h =>
    obtain rfl := Option.some.inj (hnext.symm.trans h)
    split
    next hitem => rw [hitem]
    next hitem => rw [hitem]

/-- What opens no level is done without regard to the count. -/
instance : Lexer CountedReader where
  lex op := lift (Lexer.lex op)
  fail kind := lift (Lexer.fail kind)
  chain := chain

/-! ## Levels -/

/-- Opens a level around a reader, unless as many are open as the limit allows, and closes it
afterwards, whether reading succeeds or fails. -/
def nest (limit : UInt64) (r : CountedReader α) : CountedReader α where
  read n s :=
    if limit ≤ n then (Reader.fail .maxDepthExceeded s, n)
    else ((r.read (n + 1) s).1, (r.read (n + 1) s).2 - 1)
  within n s := by
    split
    · exact (Reader.fail .maxDepthExceeded).within s
    · exact r.within (n + 1) s

/-- Reads an expression with a level around it, and so on inside of it for as many levels, below
which `bottom` stands. -/
def expressionUpTo (limit : UInt64) (bottom : CountedReader Expr) :
    (levels : Nat) → CountedReader Expr
  | 0 => bottom
  | levels + 1 => nest limit (expressionOver (expressionUpTo limit bottom levels))

/-- Reads an expression. There is one level more than may be open at once, so the innermost level
is never opened, and it does not matter what stands below. -/
def expression (limit : UInt64) : CountedReader Expr :=
  expressionUpTo limit (lift (Reader.fail .unexpectedEndOfInput)) (limit.toNat + 1)

/-- Reads an accessor that stands on its own. It opens no level itself. -/
def accessor (limit : UInt64) : CountedReader (List Step) :=
  Production.steps (expression limit)

/-- Reads an expression up to the closing bracket that ends both it and the text. -/
def enclosed (limit : UInt64) : CountedReader Expr :=
  Production.enclosing (expression limit)

/-! ## Agreement -/

/-- At the count `n` the counted reader `r` does what `q` does, and it gives the count `n` back,
whether it succeeds or fails. -/
def AgreesAt (n : UInt64) (r : CountedReader α) (q : Reader α) : Prop :=
  ∀ s, r.read n s = (q s, n)

namespace AgreesAt

variable {n : UInt64}

/-- A reader that opens no level leaves the count as it is. -/
theorem lift (q : Reader α) : AgreesAt n (.lift q) q :=
  fun _ => rfl

/-- Sequences agree if their parts do, since the second part starts at the same count. -/
theorem bind {r : CountedReader α} {q : Reader α} {f : α → CountedReader β} {g : α → Reader β}
    (h : AgreesAt n r q) (hf : ∀ a, AgreesAt n (f a) (g a)) : AgreesAt n (r >>= f) (q >>= g) := by
  intro s
  rw [Reader.bind_read, bind_read, h s]
  cases q s with
  | done a rest => exact hf a rest
  | failed fault rest => rfl

/-- Chains agree if their items do. -/
theorem chain {next : Char → Option (CountedReader α)} {next' : Char → Option (Reader α)}
    (h : ∀ c, Option.Rel (AgreesAt n) (next c) (next' c)) :
    AgreesAt n (chain next) (Reader.chain next') := by
  intro s
  change chainFrom next n s = (Reader.chainFrom next' s, n)
  fun_induction Reader.chainFrom next' s with
  | case1 => rw [chainFrom]
  | case2 c s hnext' =>
    have hnext := eq_none_of_rel_none (hnext' ▸ h c)
    simp [chainFrom, hnext]
  | case3 c s item' hnext' fault rest hitem =>
    obtain ⟨item, hnext, hagree⟩ := exists_of_rel_some (hnext' ▸ h c)
    rw [chainFrom_cons_of_some hnext, hagree s, hitem]
  | case4 c s item' hnext' a mid hitem fault rest hrest ih =>
    obtain ⟨item, hnext, hagree⟩ := exists_of_rel_some (hnext' ▸ h c)
    simp only [chainFrom_cons_of_some hnext, hagree s, hitem, ih, hrest]
  | case5 c s item' hnext' a mid hitem as rest hrest ih =>
    obtain ⟨item, hnext, hagree⟩ := exists_of_rel_some (hnext' ▸ h c)
    simp only [chainFrom_cons_of_some hnext, hagree s, hitem, ih, hrest]

end AgreesAt

/-- Agreement at a count is a simulation, so it passes from readers of nested expressions to the
productions around them. -/
def agreement (n : UInt64) : Simulation CountedReader Reader where
  Rel := AgreesAt n
  pure a := .lift (pure a)
  bind := .bind
  lex op := .lift (Lexer.lex op)
  fail kind := .lift (Lexer.fail kind)
  chain := .chain

/-! ## Expressions -/

section

variable {limit n : UInt64} {nested : CountedReader Expr}

/-- Below the limit the count does not wrap around. -/
theorem toNat_add_one_of_lt (h : n < limit) : (n + 1).toNat = n.toNat + 1 := by
  have hlt := UInt64.lt_iff_toNat_lt.1 h
  have hlimit := limit.toNat_lt
  rw [UInt64.toNat_add, UInt64.toNat_one]
  omega

/-- A level around a reader that has one level less to open. -/
theorem nest_expressionOver_agreesAt
    (h : n < limit → AgreesAt (n + 1) nested (.expression (limit.toNat - (n + 1).toNat))) :
    AgreesAt n (nest limit (expressionOver nested)) (.expression (limit.toNat - n.toNat)) := by
  intro s
  by_cases hn : limit ≤ n
  · rw [Nat.sub_eq_zero_of_le (UInt64.le_iff_toNat_le.1 hn)]
    exact if_pos hn
  · have hlt : n < limit := UInt64.not_le.1 hn
    have hlevels : limit.toNat - n.toNat = limit.toNat - (n + 1).toNat + 1 := by
      have hlt' := UInt64.lt_iff_toNat_lt.1 hlt
      rw [toNat_add_one_of_lt hlt]
      omega
    have hbody := (agreement (n + 1)).expressionOver (h hlt) s
    rw [hlevels, Reader.expression_succ]
    exact (if_neg hn).trans (by rw [hbody, UInt64.add_sub_cancel])

/-- Around enough levels it does not matter what stands below them. -/
theorem expressionUpTo_agreesAt (bottom : CountedReader Expr) {levels : Nat}
    (h : limit.toNat ≤ n.toNat + levels) :
    AgreesAt n (expressionUpTo limit bottom (levels + 1))
      (.expression (limit.toNat - n.toNat)) := by
  induction levels generalizing n with
  | zero =>
    -- The limit is reached, so the level around the bottom is not opened.
    refine nest_expressionOver_agreesAt fun hlt => ?_
    have hlt' := UInt64.lt_iff_toNat_lt.1 hlt
    omega
  | succ levels ih =>
    refine nest_expressionOver_agreesAt fun hlt => ih ?_
    rw [toNat_add_one_of_lt hlt]
    omega

/-- With `n` levels open, as many more may be opened as the limit allows beyond `n`, and all that
are opened are closed again. -/
theorem expression_agreesAt (limit n : UInt64) :
    AgreesAt n (expression limit) (.expression (limit.toNat - n.toNat)) :=
  expressionUpTo_agreesAt _ (Nat.le_add_left _ _)

/-- Whatever reader opens a level around itself agrees with the reader of expressions, by induction
on the levels that are left. -/
theorem agreesAt_of_eq_nest {r : CountedReader Expr} (h : r = nest limit (expressionOver r)) :
    AgreesAt n r (.expression (limit.toNat - n.toNat)) := by
  induction hk : limit.toNat - n.toNat using Nat.strongRecOn generalizing n with
  | ind k ih =>
    rw [h, ← hk]
    refine nest_expressionOver_agreesAt fun hlt => ih _ ?_ rfl
    have hlt' := UInt64.lt_iff_toNat_lt.1 hlt
    rw [toNat_add_one_of_lt hlt]
    omega

end

/-- The reader of expressions is the one reader that opens a level around itself. -/
theorem eq_nest_iff {limit : UInt64} {r : CountedReader Expr} :
    r = nest limit (expressionOver r) ↔ r = expression limit := by
  constructor
  · intro h
    apply CountedReader.ext
    funext n s
    rw [agreesAt_of_eq_nest h s, expression_agreesAt limit n s]
  · rintro rfl
    apply CountedReader.ext
    funext n s
    rw [expression_agreesAt limit n s,
      nest_expressionOver_agreesAt (fun _ => expression_agreesAt limit (n + 1)) s]

theorem accessor_agreesAt (limit n : UInt64) :
    AgreesAt n (accessor limit) (.accessor (limit.toNat - n.toNat)) :=
  (agreement n).steps (expression_agreesAt limit n)

theorem enclosed_agreesAt (limit n : UInt64) :
    AgreesAt n (enclosed limit) (.enclosed (limit.toNat - n.toNat)) :=
  (agreement n).enclosing (expression_agreesAt limit n)

end CountedReader

end BracketExpr
