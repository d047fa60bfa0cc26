import BracketExpr.Fault

/-!
# Readers

A reader takes a value from the start of a text. Its result depends on nothing but the text that
remains to be read, and it leaves a remaining text behind whether it succeeds or fails, so a
sequence of readings can go on after a failure.

A reader never invents text: what it leaves is a final part of what it was given, and a fault lies
between the two. That invariant is part of the type `Reader`, where it makes repetition
(`Reader.chain`) terminate.
-/

namespace BracketExpr

variable {α β : Type}

/-- The result of reading a text: a value or a fault, and the text that is left. -/
inductive Reading (α : Type) where
  /-- A value was read. -/
  | done (value : α) (rest : Text)
  /-- Reading failed; `rest` is left, which may lie beyond the point of failure. -/
  | failed (fault : Fault) (rest : Text)
  deriving DecidableEq, Repr

namespace Reading

/-- The text that is left, after a success or a failure. -/
def rest : Reading α → Text
  | done _ rest => rest
  | failed _ rest => rest

/-- The reading keeps to `s`: what is left is a final part of `s`, and a fault stands at or before
what is left. -/
def Within (s : Text) : Reading α → Prop
  | done _ rest => rest <:+ s
  | failed fault rest => rest <:+ fault.rest ∧ fault.rest <:+ s

/-- Whether it succeeds or fails, a reading leaves a final part of its text. -/
theorem Within.rest_suffix {s : Text} {r : Reading α} (h : r.Within s) : r.rest <:+ s := by
  cases r with
  | done => exact h
  | failed => exact h.1.trans h.2

/-- A reading that keeps to a final part of a text keeps to the text. -/
theorem Within.of_suffix {s t : Text} {r : Reading α} (h : r.Within s) (hst : s <:+ t) :
    r.Within t := by
  cases r with
  | done => exact List.IsSuffix.trans h hst
  | failed => exact ⟨h.1, h.2.trans hst⟩

end Reading

/-- A function from remaining texts to readings that keeps to the text it is given. -/
structure Reader (α : Type) where
  /-- Reads a value from the start of a text. -/
  read : Text → Reading α
  /-- Reading keeps to the given text. -/
  within : ∀ s, (read s).Within s

namespace Reader

instance : CoeFun (Reader α) fun _ => Text → Reading α := ⟨read⟩

/-- Gives a value and reads nothing. -/
protected def pure (a : α) : Reader α where
  read s := .done a s
  within s := List.suffix_refl s

/-- Reads with `r`, then goes on with `f` on what is left; a failure of either is final. -/
protected def bind (r : Reader α) (f : α → Reader β) : Reader β where
  read s :=
    match r s with
    | .done a rest => f a rest
    | .failed fault rest => .failed fault rest
  within s := by
    have h := r.within s
    split
    next a rest heq => rw [heq] at h; exact ((f a).within rest).of_suffix h
    next heq => rw [heq] at h; exact h

instance : Monad Reader where
  pure := Reader.pure
  bind := Reader.bind

@[simp]
theorem pure_read (a : α) (s : Text) : (pure a : Reader α) s = .done a s := rfl

/-- A sequence reads its second part from what the first one leaves. -/
theorem bind_read (r : Reader α) (f : α → Reader β) (s : Text) :
    (r >>= f) s =
      match r s with
      | .done a rest => f a rest
      | .failed fault rest => .failed fault rest := rfl

theorem bind_read_of_done {r : Reader α} {s rest : Text} {a : α} (h : r s = .done a rest)
    (f : α → Reader β) : (r >>= f) s = f a rest := by
  rw [bind_read, h]

theorem bind_read_of_failed {r : Reader α} {s rest : Text} {fault : Fault}
    (h : r s = .failed fault rest) (f : α → Reader β) : (r >>= f) s = .failed fault rest := by
  rw [bind_read, h]

/-- Puts off the construction of a reader until there is a text to read. -/
def delay (r : Unit → Reader α) : Reader α where
  read s := r () s
  within s := (r ()).within s

@[simp]
theorem delay_read (r : Unit → Reader α) (s : Text) : delay r s = r () s := rfl

/-- Fails at the current point, showing the current character. -/
def fail (kind : FaultKind) : Reader α where
  read s := .failed (.atStart kind s) s
  within s := ⟨List.suffix_refl s, List.suffix_refl s⟩

@[simp]
theorem fail_read (kind : FaultKind) (s : Text) :
    (fail kind : Reader α) s = .failed (.atStart kind s) s := rfl

/-- What `f` finds out about the remaining text, which stays as it is. -/
def lookAhead (f : Text → α) : Reader α where
  read s := .done (f s) s
  within s := List.suffix_refl s

/-- The current character, if the text has not ended. -/
def current : Reader (Option Char) :=
  lookAhead List.head?

@[simp]
theorem current_read (s : Text) : current s = .done s.head? s := rfl

/-- Moves past the current character, if there is one. -/
def advance : Reader Unit where
  read s := .done () s.tail
  within s := List.tail_suffix s

@[simp]
theorem advance_read (s : Text) : advance s = .done () s.tail := rfl

/-- Moves past all blanks that come next. -/
def skipBlanks : Reader Unit where
  read s := .done () s.skipBlanks
  within _ := List.dropWhile_suffix _

@[simp]
theorem skipBlanks_read (s : Text) : skipBlanks s = .done () s.skipBlanks := rfl

/-- Moves past the character `c` if it comes next, and tells whether it did. -/
def eat (c : Char) : Reader Bool where
  read
    | [] => .done false []
    | d :: s => if d = c then .done true s else .done false (d :: s)
  within s := by
    cases s with
    | nil => exact List.suffix_refl []
    | cons d s =>
      dsimp only
      split
      · exact List.suffix_cons d s
      · exact List.suffix_refl _

/-- Takes the lexeme that `scan` finds at the start of the text. An empty lexeme is a miss: it
gives `none` and nothing is consumed. -/
def lexeme (scan : Text → Text) : Reader (Option String) where
  read s :=
    match scan s with
    | [] => .done none s
    | c :: w => .done (some (String.ofList (c :: w))) (s.drop (c :: w).length)
  within s := by
    split
    · exact List.suffix_refl s
    · exact List.drop_suffix _ s

/-- Reads items for as long as the next character opens one. The opening character is consumed and
`next` tells how the item goes on, or `none` if the character opens no item. -/
def chainFrom (next : Char → Option (Reader α)) : Text → Reading (List α)
  | [] => .done [] []
  | c :: s =>
    match next c with
    | none => .done [] (c :: s)
    | some item =>
      match _h : item s with
      | .failed fault rest => .failed fault rest
      | .done a rest =>
        match chainFrom next rest with
        | .failed fault rest => .failed fault rest
        | .done as rest => .done (a :: as) rest
termination_by s => s.length
decreasing_by
  have hw := item.within s
  rw [_h] at hw
  exact Nat.lt_succ_of_le (List.IsSuffix.length_le hw)

/-- Chains keep to the given text, since each of their items does. -/
theorem chainFrom_within (next : Char → Option (Reader α)) (s : Text) :
    (chainFrom next s).Within s := by
  fun_induction chainFrom next s with
  | case1 => exact List.suffix_refl []
  | case2 c s => exact List.suffix_refl _
  | case3 c s item _ fault rest h =>
    have hw := item.within s
    rw [h] at hw
    exact hw.of_suffix (List.suffix_cons c s)
  | case4 c s item _ a rest h fault rest' h' ih =>
    have hw := item.within s
    rw [h] at hw
    rw [h'] at ih
    exact ih.of_suffix (List.IsSuffix.trans hw (List.suffix_cons c s))
  | case5 c s item _ a rest h as rest' h' ih =>
    have hw := item.within s
    rw [h] at hw
    rw [h'] at ih
    exact ih.of_suffix (List.IsSuffix.trans hw (List.suffix_cons c s))

/-- The reader of a chain of items, each announced by its opening character. -/
def chain (next : Char → Option (Reader α)) : Reader (List α) where
  read := chainFrom next
  within := chainFrom_within next

end Reader

end BracketExpr
