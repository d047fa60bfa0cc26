import BracketExpr.Proofs.Grammar
import BracketExpr.Tree.Reader

/-!
# Rules for readers

How the parts of a reader determine the whole. A sequence of readers succeeds exactly if its parts
do, one on what the other leaves, and a chain of items is unrolled from its front; both give rise
to one rule each for the values that are read and for the faults that are met.

Blanks come first, since every production skips them: a reader that stands before blanks sees the
text after them.
-/

namespace BracketExpr

variable {α β : Type}

/-! ## Blanks and first characters -/

namespace Text

/-- The text does not start with a character of the class `p`. The empty text never does. -/
def StartsOutside (p : Char → Bool) (s : Text) : Prop :=
  s.head?.any p = false

@[simp]
theorem startsOutside_nil (p : Char → Bool) : StartsOutside p [] := rfl

@[simp]
theorem startsOutside_cons {p : Char → Bool} {c : Char} {s : Text} :
    StartsOutside p (c :: s) ↔ p c = false := Iff.rfl

/-- A text that starts outside a class starts outside every smaller one. -/
theorem StartsOutside.mono {p q : Char → Bool} {s : Text} (h : StartsOutside q s)
    (hpq : ∀ c, p c → q c) : StartsOutside p s := by
  cases s with
  | nil => rfl
  | cons c s =>
    rw [startsOutside_cons] at h ⊢
    refine Bool.eq_false_iff.2 fun hp => ?_
    rw [hpq c hp] at h
    cases h

/-- A scan for characters of a class takes a run of them and stops where the class ends. -/
theorem takeWhile_append_of_outside {p : Char → Bool} {w s : Text} (hw : ∀ c ∈ w, p c)
    (hs : StartsOutside p s) : (w ++ s).takeWhile p = w := by
  rw [List.takeWhile_append_of_pos hw]
  cases s with
  | nil => simp
  | cons c s =>
    rw [startsOutside_cons] at hs
    simp [hs]

theorem isBlank_nil : IsBlank [] := by
  simp [IsBlank]

theorem IsBlank.append {w v : Text} (hw : w.IsBlank) (hv : v.IsBlank) : IsBlank (w ++ v) := by
  intro c hc
  rcases List.mem_append.1 hc with hc | hc
  · exact hw c hc
  · exact hv c hc

theorem skipBlanks_append {w : Text} (hw : w.IsBlank) (s : Text) :
    skipBlanks (w ++ s) = skipBlanks s :=
  List.dropWhile_append_of_pos hw

/-- Where no blank comes first there is nothing to skip. -/
theorem skipBlanks_of_outside {s : Text} (h : StartsOutside isBlank s) : skipBlanks s = s := by
  cases s with
  | nil => rfl
  | cons c s =>
    rw [startsOutside_cons] at h
    simp [skipBlanks, h]

/-- After blanks have been skipped no blank comes first. -/
theorem startsOutside_skipBlanks (s : Text) : StartsOutside isBlank (skipBlanks s) := by
  induction s with
  | nil => rfl
  | cons c s ih =>
    by_cases h : isBlank c
    · simpa [skipBlanks, h] using ih
    · simp [skipBlanks, h]

@[simp]
theorem skipBlanks_skipBlanks (s : Text) : skipBlanks (skipBlanks s) = skipBlanks s :=
  skipBlanks_of_outside (startsOutside_skipBlanks s)

/-- What is skipped is blank. -/
theorem exists_blank_append (s : Text) : ∃ w, IsBlank w ∧ s = w ++ skipBlanks s := by
  refine ⟨s.takeWhile isBlank, fun c hc => ?_, List.takeWhile_append_dropWhile.symm⟩
  exact List.all_eq_true.1 List.all_takeWhile c hc

end Text

/-- Induction from shorter texts. A chain goes on with what an item leaves of the text behind its
first character, whatever part of it that is. -/
theorem Text.induction_by_length {motive : Text → Prop} (nil : motive [])
    (cons : ∀ c s, (∀ t : Text, t.length ≤ s.length → motive t) → motive (c :: s)) (s : Text) :
    motive s := by
  induction hn : s.length using Nat.strongRecOn generalizing s with
  | ind n ih =>
    cases s with
    | nil => exact nil
    | cons c s =>
      refine cons c s fun t ht => ih t.length ?_ t rfl
      rw [← hn, List.length_cons]
      omega

/-! ## Sequences -/

namespace Reader

open Production

/-- A sequence reads a value exactly if its first part reads one and its second part goes on from
there. -/
theorem bind_eq_done {r : Reader α} {f : α → Reader β} {s rest : Text} {b : β} :
    (r >>= f) s = .done b rest ↔ ∃ a mid, r s = .done a mid ∧ f a mid = .done b rest := by
  rw [bind_read]
  cases r s with
  | done a mid => simp [and_assoc]
  | failed fault mid => simp

/-- A sequence fails where its first part fails, or else where its second part does. -/
theorem bind_eq_failed {r : Reader α} {f : α → Reader β} {s rest : Text} {fault : Fault} :
    (r >>= f) s = .failed fault rest ↔
      r s = .failed fault rest ∨ ∃ a mid, r s = .done a mid ∧ f a mid = .failed fault rest := by
  rw [bind_read]
  cases r s with
  | done a mid => simp [and_assoc]
  | failed fault mid => simp

/-- Sequences can be regrouped. -/
theorem bind_bind_read {γ : Type} (r : Reader α) (f : α → Reader β) (g : β → Reader γ) (s : Text) :
    ((r >>= f) >>= g) s = (r >>= fun a => f a >>= g) s := by
  rw [bind_read, bind_read, bind_read]
  cases r s <;> rfl

/-- The character is taken if it comes first, and nothing moves otherwise. -/
theorem eat_read (c : Char) (s : Text) :
    eat c s = .done (s.head? == some c) (if s.head? = some c then s.tail else s) := by
  cases s with
  | nil => rfl
  | cons d s => by_cases hd : d = c <;> simp [eat, hd]

theorem expect_read_self (c : Char) (kind : FaultKind) (s : Text) :
    expect (m := Reader) c kind (c :: s) = .done () s := by
  rw [expect, lex_eat, bind_read_of_done (eat_read c (c :: s))]
  simp

/-- A character that is missing is reported at the place where it should stand. -/
theorem expect_read_of_ne {c : Char} {s : Text} (h : s.head? ≠ some c) (kind : FaultKind) :
    expect (m := Reader) c kind s = .failed (.atStart kind s) s := by
  rw [expect, lex_eat, bind_read_of_done (eat_read c s)]
  simp [h]

/-- What `expect` has read is the character it stands for. -/
theorem expect_eq_done {c : Char} {kind : FaultKind} {s rest : Text} {u : Unit} :
    expect (m := Reader) c kind s = .done u rest ↔ s = c :: rest := by
  constructor
  · intro h
    by_cases hs : s.head? = some c
    · obtain ⟨t, rfl⟩ := List.head?_eq_some_iff.1 hs
      rw [expect_read_self] at h
      cases h
      rfl
    · rw [expect_read_of_ne hs] at h
      cases h
  · rintro rfl
    exact expect_read_self c kind rest

/-- What `expect` does not find, it misses where it stands. -/
theorem expect_eq_failed {c : Char} {kind : FaultKind} {s rest : Text} {fault : Fault}
    (h : expect (m := Reader) c kind s = .failed fault rest) : fault = .atStart kind s := by
  by_cases hs : s.head? = some c
  · obtain ⟨t, rfl⟩ := List.head?_eq_some_iff.1 hs
    rw [expect_read_self] at h
    cases h
  · rw [expect_read_of_ne hs] at h
    cases h
    rfl

/-! ## Chains -/

theorem chain_read (next : Char → Option (Reader α)) (s : Text) :
    chain next s = chainFrom next s := rfl

/-- A chain ends where the next character opens no item. -/
theorem chainFrom_of_stop {next : Char → Option (Reader α)} {s : Text}
    (h : ∀ c, s.head? = some c → next c = none) : chainFrom next s = .done [] s := by
  cases s with
  | nil => rw [chainFrom]
  | cons c s => simp [chainFrom, h c rfl]

/-- A chain whose next character opens an item reads the item and then the rest of the chain. -/
theorem chainFrom_cons_of_some {next : Char → Option (Reader α)} {c : Char} {item : Reader α}
    (hnext : next c = some item) (s : Text) :
    chainFrom next (c :: s) = (do let a ← item; let as ← chain next; return a :: as) s := by
  rw [chainFrom]
  split
  next h => rw [hnext] at h; cases h
  next item' h =>
    obtain rfl := Option.some.inj (hnext.symm.trans h)
    split
    next fault mid hitem => rw [bind_read_of_failed hitem]
    next a mid hitem =>
      rw [bind_read_of_done hitem, bind_read, chain_read]
      cases chainFrom next mid <;> rfl

/-- A chain that starts with one item goes on where the item ends. -/
theorem chainFrom_of_done {next : Char → Option (Reader α)} {c : Char} {item : Reader α}
    {s mid rest : Text} {a : α} {as : List α} (hnext : next c = some item)
    (hitem : item s = .done a mid) (hrest : chain next mid = .done as rest) :
    chainFrom next (c :: s) = .done (a :: as) rest := by
  rw [chainFrom_cons_of_some hnext, bind_read_of_done hitem, bind_read_of_done hrest, pure_read]

/-- Induction over a chain that has been read: from its end, one item after the other. -/
theorem chainFrom_done_induction {next : Char → Option (Reader α)}
    {motive : Text → List α → Text → Prop} (stop : ∀ s, motive s [] s)
    (step : ∀ c s item a mid as rest, next c = some item → item s = .done a mid →
      motive mid as rest → motive (c :: s) (a :: as) rest)
    {s rest : Text} {as : List α} (h : chainFrom next s = .done as rest) : motive s as rest := by
  fun_induction chainFrom next s generalizing as with
  | case1 => cases h; exact stop []
  | case2 c s => cases h; exact stop (c :: s)
  | case3 => cases h
  | case4 => cases h
  | case5 c s item hnext a mid hitem as' rest' hrest ih =>
    cases h
    exact step c s item a mid as' _ hnext hitem (ih hrest)

/-- Induction over a chain that fails: from the item that fails, one item before it after the
other. -/
theorem chainFrom_failed_induction {next : Char → Option (Reader α)} {motive : Text → Fault → Prop}
    (item_fails : ∀ c s item fault rest, next c = some item → item s = .failed fault rest →
      motive (c :: s) fault)
    (step : ∀ c s item a mid fault, next c = some item → item s = .done a mid →
      motive mid fault → motive (c :: s) fault)
    {s rest : Text} {fault : Fault} (h : chainFrom next s = .failed fault rest) :
    motive s fault := by
  fun_induction chainFrom next s with
  | case1 => cases h
  | case2 => cases h
  | case3 c s item hnext fault' mid hitem =>
    cases h
    exact item_fails c s item _ _ hnext hitem
  | case4 c s item hnext a mid hitem fault' rest' hrest ih =>
    cases h
    exact step c s item a mid _ hnext hitem (ih hrest)
  | case5 => cases h

end Reader

end BracketExpr
