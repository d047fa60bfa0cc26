import BracketExpr.Proofs.CountedReading
import BracketExpr.Proofs.DiagnosticPlace
import BracketExpr.Proofs.NestedReading
import BracketExpr.Proofs.Recognition

/-!
# The nesting limit

A lower limit only ever cuts a reading short. Where the limit plays no part, a reader with a higher
limit does the same, on success and on failure; where it does, the reader with the higher limit goes
further before anything stops it for its depth. Both follow by induction on the limit from what
productions ask of the reader of nested expressions.

Every level takes two characters of the text, so a text has only so many: from a certain limit on
all limits are alike, and whatever stands below that many levels is never run.
-/

namespace BracketExpr

open Production (expressionOver)

variable {α β : Type}

/-! ## Cut readings -/

namespace Reading

/-- The reading goes on beyond the point from which `n` characters are left: what it leaves lies
behind that point, and so does the place where the limit stops it. -/
def Passes (n : Nat) : Reading α → Prop
  | done _ rest => rest.length < n
  | failed fault _ => fault.kind = .maxDepthExceeded → fault.rest.length < n

/-- A reading that stays within a text shorter than the bound passes the bound. -/
theorem Passes.of_within {n : Nat} {s : Text} {x : Reading α} (h : x.Within s)
    (hs : s.length < n) : x.Passes n := by
  cases x with
  | done a rest =>
    have hle := List.IsSuffix.length_le h
    exact Nat.lt_of_le_of_lt hle hs
  | failed fault rest =>
    intro _
    exact Nat.lt_of_le_of_lt (List.IsSuffix.length_le h.2) hs

/-- The reading `x`, under a lower limit, does what `y` does under a higher one, and the limit plays
no part; or it is stopped by its limit at a point that `y` passes. -/
def Cut (x y : Reading α) : Prop :=
  (x = y ∧ x.KeepsLimit) ∨ ∃ fault rest, x = .failed fault rest ∧
    fault.kind = .maxDepthExceeded ∧ y.Passes fault.rest.length

end Reading

namespace Reader

namespace Consults

variable {n : Int} {s : Text} {r : Reader Expr → Reader α} {nested nested' : Reader Expr}

/-- Built around readers of which one cuts the other short, readers do so too. -/
theorem cut (h : Consults n r s) (hnested : ∀ p, (nested p).Cut (nested' p)) :
    (r nested s).Cut (r nested' s) := by
  induction h with
  | never h hreading =>
    rw [h nested, h nested']
    exact .inl ⟨rfl, hreading⟩
  | @first r s p f h hp hf ih =>
    rw [h nested, h nested']
    rcases hnested p with ⟨heq, hkeeps⟩ | ⟨fault, rest, hfail, hkind, hpasses⟩
    · cases hx : nested p with
      | done e mid =>
        rw [bind_read_of_done hx, bind_read_of_done (heq ▸ hx)]
        exact ih e mid (length_le_of_done hx)
      | failed fault rest =>
        rw [bind_read_of_failed hx, bind_read_of_failed (heq ▸ hx)]
        rw [hx] at hkeeps
        exact .inl ⟨rfl, hkeeps⟩
    · refine .inr ⟨fault, rest, bind_read_of_failed hfail _, hkind, ?_⟩
      cases hy : nested' p with
      | done e mid =>
        rw [hy] at hpasses
        rw [bind_read_of_done hy]
        exact .of_within ((f nested' e).within mid) hpasses
      | failed fault' rest' =>
        rw [hy] at hpasses
        rw [bind_read_of_failed hy]
        exact hpasses

/-- If the limit stops nested readings after `k` characters at the earliest, it stops a reader that
is built around them that much behind the first of them. -/
theorem length_of_exceeded {k : Nat} (h : Consults n r s)
    (hnested : ∀ p fault rest, nested p = .failed fault rest → fault.kind = .maxDepthExceeded →
      fault.rest.length + k ≤ p.length)
    {fault : Fault} {rest : Text} (hfail : r nested s = .failed fault rest)
    (hkind : fault.kind = .maxDepthExceeded) : fault.rest.length + k ≤ n := by
  induction h with
  | never h hreading =>
    rw [← h nested, hfail] at hreading
    exact absurd hkind hreading
  | @first r s p f h hp hf ih =>
    rw [h nested] at hfail
    rcases bind_eq_failed.1 hfail with hfirst | ⟨e, mid, hfirst, hrest⟩
    · have hle := hnested p fault rest hfirst hkind
      omega
    · exact ih e mid (length_le_of_done hfirst) hrest

/-- Readers that are alike on all texts of at most `n` characters need not be told apart. -/
theorem eq_of_eq (h : Consults n r s) (hnested : ∀ p : Text, p.length ≤ n → nested p = nested' p) :
    r nested s = r nested' s := by
  induction h with
  | never h hreading => rw [h nested, h nested']
  | @first r s p f h hp hf ih =>
    rw [h nested, h nested', bind_read, bind_read, ← hnested p hp]
    cases hx : nested p with
    | done e mid => exact ih e mid (length_le_of_done hx)
    | failed fault rest => rfl

end Consults

/-! ## Expressions -/

/-- The limit stops a reading only behind the two characters that each allowed level takes. -/
theorem expression_exceeded {limit : Nat} {s rest : Text} {fault : Fault}
    (h : expression limit s = .failed fault rest) (hkind : fault.kind = .maxDepthExceeded) :
    fault.rest.length + 2 * limit ≤ s.length := by
  induction limit generalizing s rest fault with
  | zero =>
    cases h
    exact Nat.le_refl _
  | succ limit ih =>
    rw [expression_succ] at h
    have hle := (expressionOver_consults s).length_of_exceeded
      (fun p fault rest hp hkind => ih hp hkind) h hkind
    omega

/-- An expression takes at least one character. -/
theorem length_lt_of_expression {limit : Nat} {s rest : Text} {e : Expr}
    (h : expression limit s = .done e rest) : rest.length < s.length := by
  obtain ⟨w₁, t, w₂, rfl, -, -, ht, -⟩ := expression_sound limit s e rest h
  obtain ⟨c, v, rfl, -⟩ := ht.exists_head
  simp only [List.length_append, List.length_cons]
  omega

/-- A lower limit cuts readings of expressions short and changes nothing else about them. -/
theorem expression_cut {limit limit' : Nat} (hlt : limit < limit') (s : Text) :
    (expression limit s).Cut (expression limit' s) := by
  induction limit generalizing limit' s with
  | zero =>
    refine .inr ⟨.atStart .maxDepthExceeded s, s, rfl, rfl, ?_⟩
    cases h : expression limit' s with
    | done e rest => exact length_lt_of_expression h
    | failed fault rest =>
      intro hkind
      have hle := expression_exceeded h hkind
      change fault.rest.length < s.length
      omega
  | succ limit ih =>
    obtain ⟨limit', rfl⟩ : ∃ k, limit' = k + 1 := ⟨limit' - 1, by omega⟩
    rw [expression_succ, expression_succ]
    exact (expressionOver_consults s).cut fun p => ih (by omega) p

/-- Of a short text, no reading gets below `k` levels, whatever reader stands there. -/
theorem iterate_expressionOver_eq {k : Nat} {s : Text} (hs : s.length < 2 * k)
    (bottom bottom' : Reader Expr) :
    (expressionOver^[k] bottom) s = (expressionOver^[k] bottom') s := by
  induction k generalizing s with
  | zero => exact absurd hs (Nat.not_lt_zero _)
  | succ k ih =>
    rw [Function.iterate_succ_apply', Function.iterate_succ_apply']
    refine (expressionOver_consults s).eq_of_eq fun p hp => ih ?_
    omega

/-- Raising the limit changes the reading of a bracketed expression only where the lower limit was
exceeded. -/
theorem enclosed_eq_or_exceeded {limit limit' : Nat} (hle : limit ≤ limit') (s : Text) :
    enclosed limit s = enclosed limit' s ∨
      ∃ fault rest, enclosed limit s = .failed fault rest ∧ fault.kind = .maxDepthExceeded := by
  rcases Nat.eq_or_lt_of_le hle with rfl | hlt
  · exact .inl rfl
  · rcases expression_cut hlt s with ⟨heq, -⟩ | ⟨fault, rest, hfail, hkind, -⟩
    · refine .inl ?_
      rw [enclosed, enclosed, Production.enclosing, Production.enclosing, bind_read, bind_read, heq]
    · exact .inr ⟨fault, rest, bind_read_of_failed hfail _, hkind⟩

/-- Behind its expression, an enclosed expression does not fail for its depth. -/
theorem expression_of_enclosed_exceeded {limit : Nat} {s rest : Text} {fault : Fault}
    (h : enclosed limit s = .failed fault rest) (hkind : fault.kind = .maxDepthExceeded) :
    expression limit s = .failed fault rest := by
  rcases enclosed_eq_failed h with
    hexpr | ⟨e, mid, -, ⟨-, rfl⟩ | ⟨c, t, -, -, rfl⟩ | ⟨c, t, -, rfl⟩⟩
  · exact hexpr
  all_goals cases hkind

end Reader

/-! ## Classification -/

/-- Under a lower limit a value is classified as under a higher one, or the limit is exceeded. -/
theorem classify_eq_or_maxDepthExceeded {limit limit' : Nat} (hle : limit ≤ limit')
    (input : String) :
    classify limit input = classify limit' input ∨
      ∃ d, classify limit input = .error d ∧ d.kind = .maxDepthExceeded := by
  simp only [classify]
  split
  · exact .inl rfl
  next s _ _ =>
    simp only [Cursor.run]
    rcases Reader.enclosed_eq_or_exceeded hle s with h | ⟨fault, rest, h, hkind⟩
    · rw [h]
      exact .inl rfl
    · rw [h]
      exact .inr ⟨_, rfl, hkind⟩
  · exact .inl rfl

/-- Under a limit that an expression does not keep to, its text exceeds the limit. -/
theorem classify_of_enclosed_of_lt {limit : Nat} {input : String} {e : Expr}
    (h : Grammar.Enclosed input.toList e) (hd : limit < e.depth) :
    ∃ d, classify limit input = .error d ∧ d.kind = .maxDepthExceeded := by
  -- Under its own depth the text is read, so only the lower limit can be what stops it.
  have hok : classify e.depth input = .ok (.expression e) := classify_of_enclosed h (Nat.le_refl _)
  rcases classify_eq_or_maxDepthExceeded (Nat.le_of_lt hd) input with heq | hcut
  · have hle := (enclosed_of_classify (heq.trans hok)).2
    exact absurd hd (Nat.not_lt.2 hle)
  · exact hcut

/-- Where the limit is exceeded, the expression behind the opening bracket is. -/
theorem exists_exceeded_of_classify {limit : Nat} {input : String} {d : Diagnostic}
    (h : classify limit input = .error d) (hkind : d.kind = .maxDepthExceeded) :
    ∃ u fault rest, input.toList = '[' :: (u ++ fault.rest) ∧ fault.kind = .maxDepthExceeded ∧
      Reader.expression limit (u ++ fault.rest) = .failed fault rest ∧
      d.offset = Text.byteLength u + 1 := by
  obtain ⟨s, fault, rest, hinput, hread, rfl⟩ := classify_eq_error h
  have hexpr := Reader.expression_of_enclosed_exceeded hread hkind
  have hwithin := (Reader.expression limit).within s
  rw [hexpr] at hwithin
  obtain ⟨u, rfl⟩ := hwithin.2
  refine ⟨u, fault, rest, hinput, hkind, hexpr, ?_⟩
  rw [Cursor.offset_diagnose, List.singleton_append, Text.byteLength_cons, Nat.add_comm]
  rfl

/-- The limit is exceeded only behind two bytes for each level that it allows. -/
theorem offset_of_exceeded {limit : Nat} {input : String} {d : Diagnostic}
    (h : classify limit input = .error d) (hkind : d.kind = .maxDepthExceeded) :
    2 * limit + 1 ≤ d.offset ∧ d.offset ≤ input.utf8ByteSize := by
  obtain ⟨u, fault, rest, hinput, hfault, hexpr, hoffset⟩ := exists_exceeded_of_classify h hkind
  have hlength := Reader.expression_exceeded hexpr hfault
  have hbytes := Text.length_le_byteLength u
  have hsize : input.utf8ByteSize = 1 + Text.byteLength (u ++ fault.rest) := by
    rw [← String.ofList_toList (s := input), ← Text.byteLength_eq_utf8ByteSize, hinput]
    rfl
  rw [List.length_append] at hlength
  rw [Text.byteLength_append] at hsize
  omega

/-- A higher limit is exceeded further on, if it is. -/
theorem offset_lt_of_exceeded {limit limit' : Nat} (hlt : limit < limit') {input : String}
    {d d' : Diagnostic} (h : classify limit input = .error d) (hkind : d.kind = .maxDepthExceeded)
    (h' : classify limit' input = .error d') (hkind' : d'.kind = .maxDepthExceeded) :
    d.offset < d'.offset := by
  obtain ⟨u, fault, rest, hinput, hfault, hexpr, hoffset⟩ := exists_exceeded_of_classify h hkind
  obtain ⟨u', fault', rest', hinput', hfault', hexpr', hoffset'⟩ :=
    exists_exceeded_of_classify h' hkind'
  have hsame : u ++ fault.rest = u' ++ fault'.rest :=
    (List.cons.inj (hinput.symm.trans hinput')).2
  have hshorter : fault'.rest.length < fault.rest.length := by
    rcases Reader.expression_cut hlt (u ++ fault.rest) with
      ⟨-, hkeeps⟩ | ⟨fault₁, rest₁, hcut, -, hpasses⟩
    · rw [hexpr] at hkeeps
      exact absurd hfault hkeeps
    · obtain ⟨rfl, rfl⟩ := Reading.failed.inj (hexpr.symm.trans hcut)
      rw [hsame, hexpr'] at hpasses
      exact hpasses hfault'
  -- So the text before the first point is a proper part of the text before the second.
  have hlength := congrArg List.length hsame
  rw [List.length_append, List.length_append] at hlength
  obtain ⟨v, rfl⟩ : u <+: u' := by
    refine List.prefix_of_prefix_length_le (List.prefix_append u fault.rest) ?_ (by omega)
    rw [hsame]
    exact List.prefix_append u' fault'.rest
  have hv : Text.byteLength v ≠ 0 := by
    intro hzero
    rw [Text.byteLength_eq_zero.1 hzero, List.append_nil] at hlength
    omega
  rw [Text.byteLength_append] at hoffset'
  omega

/-- Of two limits, the lower one only cuts the classification of an input short. -/
structure CutsShort (input : String) (limit limit' : Nat) : Prop where
  eq_of_not_exceeded : (∀ d, classify limit input = .error d → d.kind ≠ .maxDepthExceeded) →
    classify limit' input = classify limit input
  of_depth_le : ∀ e, classify limit' input = .ok (.expression e) → e.depth ≤ limit →
    classify limit input = .ok (.expression e)
  of_lt_depth : ∀ e, classify limit' input = .ok (.expression e) → limit < e.depth →
    ∃ d, classify limit input = .error d ∧ d.kind = .maxDepthExceeded
  le_offset : ∀ d, classify limit input = .error d → d.kind = .maxDepthExceeded →
    2 * limit + 1 ≤ d.offset
  offset_lt : ∀ d d', classify limit input = .error d → d.kind = .maxDepthExceeded →
    classify limit' input = .error d' → d'.kind = .maxDepthExceeded → d.offset < d'.offset

/-- The lower of two limits can only cut the classification short; it never gives another tree or
another fault. -/
theorem cutsShort {limit limit' : Nat} (hlt : limit < limit') (input : String) :
    CutsShort input limit limit' where
  eq_of_not_exceeded := by
    intro hkeeps
    rcases classify_eq_or_maxDepthExceeded (Nat.le_of_lt hlt) input with heq | ⟨d, hd, hkind⟩
    · exact heq.symm
    · exact absurd hkind (hkeeps d hd)
  of_depth_le := by
    intro e he hdepth
    exact classify_of_enclosed (enclosed_of_classify he).1 hdepth
  of_lt_depth := by
    intro e he hdepth
    exact classify_of_enclosed_of_lt (enclosed_of_classify he).1 hdepth
  le_offset := fun d h hkind => (offset_of_exceeded h hkind).1
  offset_lt := fun d d' h hkind h' hkind' => offset_lt_of_exceeded hlt h hkind h' hkind'

/-- An input of fewer than `2 * limit` bytes does not exceed the limit. -/
theorem not_exceeded_of_size_lt {limit : Nat} {input : String} {d : Diagnostic}
    (hsize : input.utf8ByteSize < 2 * limit) (h : classify limit input = .error d) :
    d.kind ≠ .maxDepthExceeded := by
  intro hkind
  have hoffset := offset_of_exceeded h hkind
  omega

/-- A lower limit cuts classification short and changes nothing else. All limits above half the
size of an input are alike; no expression below so many levels is read, whatever reader stands
there; and a count of the open levels in 64 bits never wraps around: with `n` of them open, as many
are opened as the limit leaves, and the count is `n` again afterwards. -/
theorem classify_cutsShort (input : String) :
    (∀ limit limit', limit < limit' → CutsShort input limit limit') ∧
      (∀ limit limit', input.utf8ByteSize < 2 * limit → input.utf8ByteSize < 2 * limit' →
        classify limit input = classify limit' input) ∧
      (∀ limit, input.utf8ByteSize < 2 * limit → ∀ (s : Text) (bottom : Reader Expr),
        input.toList = '[' :: s →
          (expressionOver^[limit] bottom) s = Reader.expression limit s) ∧
      ∀ (limit n : UInt64) (s : Text), (CountedReader.expression limit).read n s =
        (Reader.expression (limit.toNat - n.toNat) s, n) := by
  refine ⟨fun limit limit' hlt => cutsShort hlt input, fun limit limit' hsize hsize' => ?_,
    fun limit hsize s bottom hinput => ?_, CountedReader.expression_agreesAt⟩
  · rcases Nat.lt_trichotomy limit limit' with hlt | rfl | hlt
    · exact ((cutsShort hlt input).eq_of_not_exceeded fun d =>
        not_exceeded_of_size_lt hsize).symm
    · rfl
    · exact (cutsShort hlt input).eq_of_not_exceeded fun d => not_exceeded_of_size_lt hsize'
  · have hlength := Text.length_le_byteLength input.toList
    rw [Text.byteLength_eq_utf8ByteSize, String.ofList_toList, hinput, List.length_cons] at hlength
    rw [Reader.expression_eq_iterate]
    exact Reader.iterate_expressionOver_eq (by omega) _ _

/-- Three levels under limits of one, two and three. -/
theorem classify_cutsShort_three_levels :
    (1 < 2 ∧ CutsShort "[f(g(), h()[k('é')])]" 1 2) ∧
      classify 1 "[f(g(), h()[k('é')])]" = .error ⟨.maxDepthExceeded, 3, some "g"⟩ ∧
      classify 2 "[f(g(), h()[k('é')])]" = .error ⟨.maxDepthExceeded, 12, some "k"⟩ ∧
      "[f(g(), h()[k('é')])]".utf8ByteSize < 2 * 12 ∧
      classify 12 "[f(g(), h()[k('é')])]" = classify 13 "[f(g(), h()[k('é')])]" ∧
      ∀ bottom : Reader Expr, (expressionOver^[12] bottom) "f(g(), h()[k('é')])]".toList =
        Reader.expression 12 "f(g(), h()[k('é')])]".toList := by
  have h := classify_cutsShort "[f(g(), h()[k('é')])]"
  refine ⟨⟨by decide, h.1 1 2 (by decide)⟩, by decide +kernel, by decide +kernel, by decide, ?_, ?_⟩
  · exact h.2.1 12 13 (by decide) (by decide)
  · intro bottom
    exact h.2.2.1 12 (by decide) _ bottom (by decide +kernel)

end BracketExpr
