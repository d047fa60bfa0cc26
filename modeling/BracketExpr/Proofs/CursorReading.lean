import BracketExpr.Cursor

/-!
# Readings at a cursor

A reader knows nothing of the text before a cursor. That text decides where the cursor and the
diagnostics are, and it does so by its length alone: a reading that starts elsewhere with the same
text ahead goes as far and finds the same faults.
-/

namespace BracketExpr

namespace Cursor

variable {α : Type} {r : Reader α} {x y rest : Text} {a : α} {fault : Fault}

/-- A cursor moves past the first of two parts. -/
theorem moveTo_append (w x y : Text) : (Cursor.mk w (x ++ y)).moveTo y = ⟨w ++ x, y⟩ := by
  simp [moveTo]

theorem moveTo_drop {c : Cursor} {w : Text} (h : w <+: c.rest) :
    c.moveTo (c.rest.drop w.length) = ⟨c.consumed ++ w, c.rest.drop w.length⟩ := by
  obtain ⟨consumed, rest⟩ := c
  obtain ⟨t, rfl⟩ := h
  rw [List.drop_left, moveTo_append]

/-- Where nothing has been read the cursor stays. -/
@[simp]
theorem moveTo_rest (c : Cursor) : c.moveTo c.rest = c := by
  simp [moveTo]

/-- A cursor can be moved in two steps. -/
theorem moveTo_moveTo {c : Cursor} {mid : Text} (hmid : mid <:+ c.rest) (hrest : rest <:+ mid) :
    (c.moveTo mid).moveTo rest = c.moveTo rest := by
  obtain ⟨w, s⟩ := c
  obtain ⟨x, rfl⟩ := hmid
  obtain ⟨y, rfl⟩ := hrest
  rw [moveTo_append, moveTo_append, ← List.append_assoc, moveTo_append, List.append_assoc]

/-- A cursor moves as far, whatever stands before it. -/
theorem position_moveTo_add (w w' z rest : Text) :
    ((Cursor.mk w' z).moveTo rest).position + Text.byteLength w =
      ((Cursor.mk w z).moveTo rest).position + Text.byteLength w' := by
  simp only [position, moveTo, Text.byteLength_append]
  omega

/-- A fault where the cursor stands. -/
theorem diagnose_of_rest_eq {c : Cursor} (h : fault.rest = c.rest) :
    c.diagnose fault = ⟨fault.kind, c.position, fault.found.map String.ofList⟩ := by
  rw [diagnose, h, moveTo_rest]

theorem run_of_done {c : Cursor} (h : r c.rest = .done a rest) :
    c.run r = (.ok a, c.moveTo rest) := by
  simp only [run, h]

theorem run_of_failed {c : Cursor} (h : r c.rest = .failed fault rest) :
    c.run r = (.error (c.diagnose fault), c.moveTo rest) := by
  simp only [run, h]

/-- A run that can be started at a later point of the text goes as it does there. -/
theorem run_eq_run_moveTo {c : Cursor} {q : Reader α} {mid : Text} (hmid : mid <:+ c.rest)
    (h : r c.rest = q mid) : c.run r = (c.moveTo mid).run q := by
  have hwithin := q.within mid
  cases hread : q mid with
  | done a rest =>
    rw [hread] at hwithin
    rw [run_of_done (h.trans hread), run_of_done hread, moveTo_moveTo hmid hwithin]
  | failed fault rest =>
    rw [hread] at hwithin
    rw [run_of_failed (h.trans hread), run_of_failed hread, diagnose, diagnose,
      moveTo_moveTo hmid hwithin.2, moveTo_moveTo hmid (hwithin.1.trans hwithin.2)]

/-- A sequence runs its second part where the first one has left the cursor. -/
theorem run_bind {β : Type} (c : Cursor) (r : Reader α) (f : α → Reader β) :
    c.run (r >>= f) =
      match c.run r with
      | (.ok a, c') => c'.run (f a)
      | (.error d, c') => (.error d, c') := by
  have hwithin := r.within c.rest
  cases hread : r c.rest with
  | done a rest =>
    rw [hread] at hwithin
    rw [run_of_done hread]
    exact run_eq_run_moveTo hwithin (Reader.bind_read_of_done hread f)
  | failed fault rest =>
    rw [run_of_failed hread, run_of_failed (Reader.bind_read_of_failed hread f)]

/-- A run that reads exactly the text `x` stops behind it. -/
theorem run_append_of_done (h : r (x ++ y) = .done a y) (w : Text) :
    (Cursor.mk w (x ++ y)).run r = (.ok a, ⟨w ++ x, y⟩) := by
  rw [run_of_done h, moveTo_append]

/-- What a run that succeeds says about the reader. -/
theorem read_of_run_eq_ok {c c' : Cursor} (h : c.run r = (.ok a, c')) :
    r c.rest = .done a c'.rest := by
  cases hread : r c.rest with
  | done b rest =>
    rw [run_of_done hread] at h
    cases h
    rfl
  | failed fault rest =>
    rw [run_of_failed hread] at h
    cases h

/-- What a run that fails says about the reader. -/
theorem read_of_run_eq_error {c c' : Cursor} {d : Diagnostic} (h : c.run r = (.error d, c')) :
    ∃ fault rest, r c.rest = .failed fault rest ∧ d = c.diagnose fault ∧ c' = c.moveTo rest := by
  cases hread : r c.rest with
  | done a rest =>
    rw [run_of_done hread] at h
    cases h
  | failed fault rest =>
    rw [run_of_failed hread] at h
    cases h
    exact ⟨fault, rest, rfl, rfl, rfl⟩

end Cursor

end BracketExpr
