import BracketExpr.Text

/-!
# Byte offsets

A byte offset of a text is one of its character boundaries if the text can be cut there: then it is
the byte length of what stands before the cut. Slices of a text are taken between two boundaries;
at any other offset there is nothing to take. The longest part of a text that fits into a number of
bytes ends at the last boundary among them.
-/

namespace BracketExpr

namespace Text

/-- The byte length of a text is the size of its string in bytes. -/
theorem byteLength_eq_utf8ByteSize (s : Text) : byteLength s = (String.ofList s).utf8ByteSize := by
  induction s with
  | nil => rfl
  | cons c s ih =>
    rw [byteLength_cons, ih, String.ofList_cons, String.utf8ByteSize_append,
      String.utf8ByteSize_singleton]

theorem byteLength_toList (s : String) : byteLength s.toList = s.utf8ByteSize := by
  rw [byteLength_eq_utf8ByteSize, String.ofList_toList]

/-- Only the empty text has no bytes. -/
theorem byteLength_eq_zero {s : Text} : byteLength s = 0 ↔ s = [] := by
  cases s with
  | nil => simp
  | cons c s =>
    have hc := c.utf8Size_pos
    rw [byteLength_cons]
    simp only [reduceCtorEq, iff_false]
    omega

theorem length_le_byteLength (s : Text) : s.length ≤ byteLength s := by
  induction s with
  | nil => exact Nat.le_refl _
  | cons c s ih =>
    have hc := c.utf8Size_pos
    rw [List.length_cons, byteLength_cons]
    omega

/-! ## Boundaries -/

/-- The byte offset `n` is a character boundary of the UTF-8 form of the text. -/
def IsBoundary (s : Text) (n : Nat) : Prop :=
  String.Pos.Raw.IsValid (String.ofList s) ⟨n⟩

/-- At a boundary, and only there, a text can be cut. -/
theorem isBoundary_iff {s : Text} {n : Nat} :
    IsBoundary s n ↔ ∃ before after : Text, s = before ++ after ∧ byteLength before = n := by
  rw [IsBoundary, String.Pos.Raw.isValid_iff_exists_append]
  constructor
  · rintro ⟨u, v, hs, hn⟩
    refine ⟨u.toList, v.toList, ?_, ?_⟩
    · rw [← String.toList_append, ← hs, String.toList_ofList]
    · rw [byteLength_toList]
      exact (congrArg String.Pos.Raw.byteIdx hn).symm
  · rintro ⟨before, after, rfl, rfl⟩
    refine ⟨.ofList before, .ofList after, String.ofList_append, ?_⟩
    rw [byteLength_eq_utf8ByteSize]
    rfl

/-- The place between two parts of a text is a boundary. -/
theorem isBoundary_byteLength (before after : Text) :
    IsBoundary (before ++ after) (byteLength before) :=
  isBoundary_iff.2 ⟨before, after, rfl, rfl⟩

/-- No boundary lies behind the end of the text. -/
theorem IsBoundary.le_byteLength {s : Text} {n : Nat} (h : IsBoundary s n) :
    n ≤ byteLength s := by
  obtain ⟨before, after, rfl, rfl⟩ := isBoundary_iff.1 h
  rw [byteLength_append]
  exact Nat.le_add_right _ _

/-! ## Cutting -/

/-- What fits into `n` bytes goes on behind a part that fits. -/
theorem takeBytes_append {before : Text} {n : Nat} (h : byteLength before ≤ n) (after : Text) :
    takeBytes n (before ++ after) = before ++ takeBytes (n - byteLength before) after := by
  induction before generalizing n with
  | nil => rfl
  | cons c before ih =>
    rw [byteLength_cons] at h
    rw [List.cons_append, takeBytes, if_pos (by omega), ih (by omega), byteLength_cons,
      Nat.sub_add_eq, List.cons_append]

theorem takeBytes_zero (s : Text) : takeBytes 0 s = [] := by
  cases s with
  | nil => rfl
  | cons c s => rw [takeBytes, if_neg (Nat.not_le.2 c.utf8Size_pos)]

/-- The part of a text that fits into the bytes up to a boundary ends at the boundary. -/
theorem takeBytes_byteLength (before after : Text) :
    takeBytes (byteLength before) (before ++ after) = before := by
  rw [takeBytes_append (Nat.le_refl _), Nat.sub_self, takeBytes_zero, List.append_nil]

theorem takeBytes_isPrefix (n : Nat) (s : Text) : takeBytes n s <+: s := by
  fun_induction takeBytes n s with
  | case1 => exact List.prefix_rfl
  | case2 n c s hc ih => exact (List.prefix_cons_inj c).2 ih
  | case3 => exact List.nil_prefix

theorem byteLength_takeBytes_le (n : Nat) (s : Text) : byteLength (takeBytes n s) ≤ n := by
  fun_induction takeBytes n s with
  | case1 => exact Nat.zero_le _
  | case2 n c s hc ih =>
    rw [byteLength_cons]
    omega
  | case3 => exact Nat.zero_le _

/-- What fits into `n` bytes ends at the last boundary up to `n`. -/
theorem IsBoundary.le_byteLength_takeBytes {s : Text} {m n : Nat} (h : IsBoundary s m)
    (hle : m ≤ n) : m ≤ byteLength (takeBytes n s) := by
  obtain ⟨before, after, rfl, rfl⟩ := isBoundary_iff.1 h
  rw [takeBytes_append hle, byteLength_append]
  exact Nat.le_add_right _ _

/-- The text from a byte offset on is what follows the cut there. -/
theorem dropBytes?_eq_some {n : Nat} {s after : Text} :
    dropBytes? n s = some after ↔ ∃ before, s = before ++ after ∧ byteLength before = n := by
  fun_induction dropBytes? n s with
  | case1 s =>
    constructor
    · intro h
      exact ⟨[], Option.some.inj h, rfl⟩
    · rintro ⟨before, rfl, hzero⟩
      rw [byteLength_eq_zero.1 hzero, List.nil_append]
  | case2 n =>
    constructor
    · intro h
      cases h
    · rintro ⟨before, hs, hn⟩
      rw [(List.append_eq_nil_iff.1 hs.symm).1] at hn
      cases hn
  | case3 n c s hc ih =>
    rw [ih]
    constructor
    · rintro ⟨before, rfl, hn⟩
      refine ⟨c :: before, rfl, ?_⟩
      rw [byteLength_cons, hn, Nat.add_sub_of_le hc]
    · rintro ⟨before, hs, hn⟩
      cases before with
      | nil => cases hn
      | cons d before =>
        obtain ⟨rfl, rfl⟩ := List.cons.inj hs
        rw [byteLength_cons] at hn
        exact ⟨before, rfl, by omega⟩
  | case4 n c s hc =>
    constructor
    · intro h
      cases h
    · rintro ⟨before, hs, hn⟩
      cases before with
      | nil => cases hn
      | cons d before =>
        obtain ⟨rfl, rfl⟩ := List.cons.inj hs
        rw [byteLength_cons] at hn
        omega

/-- From the offset between two parts on there is the second part. -/
theorem dropBytes?_byteLength (before after : Text) :
    dropBytes? (byteLength before) (before ++ after) = some after :=
  dropBytes?_eq_some.2 ⟨before, rfl, rfl⟩

/-- A text can be sliced at its boundaries and nowhere else. -/
theorem isSome_dropBytes? {n : Nat} {s : Text} : (dropBytes? n s).isSome ↔ IsBoundary s n := by
  rw [Option.isSome_iff_exists, isBoundary_iff]
  constructor
  · rintro ⟨after, h⟩
    obtain ⟨before, hs, hn⟩ := dropBytes?_eq_some.1 h
    exact ⟨before, after, hs, hn⟩
  · rintro ⟨before, after, hs, hn⟩
    exact ⟨after, dropBytes?_eq_some.2 ⟨before, hs, hn⟩⟩

instance (s : Text) (n : Nat) : Decidable (IsBoundary s n) :=
  decidable_of_iff _ isSome_dropBytes?

/-! ## Slices -/

/-- The text up to byte offset `n`, if `n` is a character boundary of the text. -/
def takeBytes? (n : Nat) (s : Text) : Option Text :=
  (dropBytes? n s).map fun _ => takeBytes n s

/-- The text between two byte offsets, if both are character boundaries of the text and the first
one is not behind the second. -/
def slice? (i j : Nat) (s : Text) : Option Text :=
  if i ≤ j then (dropBytes? i s).bind (takeBytes? (j - i)) else none

/-- Up to the offset between two parts there is the first part. -/
theorem takeBytes?_byteLength (before after : Text) :
    takeBytes? (byteLength before) (before ++ after) = some before := by
  rw [takeBytes?, dropBytes?_byteLength, Option.map_some, takeBytes_byteLength]

/-- What stands between two cuts is the slice between their offsets. -/
theorem slice?_append (before after : Text) {s mid : Text} {i j : Nat}
    (hs : s = before ++ (mid ++ after)) (hi : i = byteLength before)
    (hj : j = byteLength (before ++ mid)) : slice? i j s = some mid := by
  subst hs hi hj
  have hlength : byteLength (before ++ mid) - byteLength before = byteLength mid := by
    rw [byteLength_append, Nat.add_sub_cancel_left]
  rw [slice?, if_pos (by rw [byteLength_append]; exact Nat.le_add_right _ _),
    dropBytes?_byteLength, Option.bind_some, hlength, takeBytes?_byteLength]

end Text

end BracketExpr
