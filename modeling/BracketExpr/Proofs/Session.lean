import BracketExpr.Cursor.Entry
import BracketExpr.Proofs.CountedReading
import BracketExpr.Proofs.DiagnosticPlace

/-!
# Sessions

A session reads one entry after the other from an input and keeps the counter of open levels from
each call to the next. Nothing but the cursor connects the calls: after each of them the counter is
at zero, whatever became of the calls before, and a call gives what it gives in a session that
starts where it starts.
-/

namespace BracketExpr

variable {α : Type}

/-! ## Cursors -/

namespace Cursor

/-- What is read and what is left make up the input. -/
theorem position_add_byteLength_rest (c : Cursor) :
    c.position + Text.byteLength c.rest = Text.byteLength c.input :=
  (Text.byteLength_append c.consumed c.rest).symm

/-- The less of an input is left, the further on is its cursor. -/
theorem position_le_of_suffix {c c' : Cursor} (hinput : c'.input = c.input)
    (h : c'.rest <:+ c.rest) : c.position ≤ c'.position := by
  obtain ⟨w, hw⟩ := h
  have hc := c.position_add_byteLength_rest
  have hc' := c'.position_add_byteLength_rest
  rw [← hw, Text.byteLength_append] at hc
  rw [hinput] at hc'
  omega

/-- There is one cursor at each position of an input. -/
theorem eq_of_position_eq {c c' : Cursor} (hinput : c.input = c'.input)
    (hposition : c.position = c'.position) : c = c' := by
  obtain ⟨consumed, rest⟩ := c
  obtain ⟨consumed', rest'⟩ := c'
  have hconsumed : consumed = consumed' := by
    rw [← Text.takeBytes_byteLength consumed rest, ← Text.takeBytes_byteLength consumed' rest']
    exact congr (congrArg Text.takeBytes hposition) hinput
  subst hconsumed
  obtain rfl : rest = rest' := List.append_cancel_left hinput
  rfl

/-- Every cursor of an input is a number of characters behind its start. -/
theorem exists_advance_eq (c : Cursor) : ∃ m, (start c.input).advance m = c := by
  refine ⟨c.consumed.length, ?_⟩
  simp [advance, moveTo, start, input]

theorem position_le_byteLength (c : Cursor) : c.position ≤ Text.byteLength c.input := by
  have h := c.position_add_byteLength_rest
  omega

end Cursor

/-! ## Calls at a cursor -/

namespace Entry

/-- The yield for the result of a reading. -/
def Yield.ofResult (present : α → Yield) : Except Diagnostic α → Yield
  | .ok a => present a
  | .error d => .diagnostic d

/-- What every call does to the cursor: it goes forward in the same input, and a diagnostic points
between the places where the call starts and where it ends. -/
structure Moves (c : Cursor) (y : Yield) (c' : Cursor) : Prop where
  input_eq : c'.input = c.input
  position_le : c.position ≤ c'.position
  offset_between : ∀ d, y = .diagnostic d → c.position ≤ d.offset ∧ d.offset ≤ c'.position

/-- A reader's run moves the cursor forward only, and its diagnostic points between the two
places. -/
theorem moves_run (c : Cursor) (r : Reader α) {present : α → Yield}
    (hpresent : ∀ a d, present a ≠ .diagnostic d) :
    Moves c (.ofResult present (c.run r).1) (c.run r).2 := by
  have hwithin := r.within c.rest
  have hinput := c.input_run r
  have hrest : (c.run r).2.rest <:+ c.rest := by
    rw [c.rest_run r]
    exact hwithin.rest_suffix
  refine ⟨hinput, Cursor.position_le_of_suffix hinput hrest, fun d hd => ?_⟩
  cases hread : r c.rest with
  | done a rest =>
    rw [Cursor.run, hread] at hd
    exact absurd hd (hpresent a d)
  | failed fault rest =>
    rw [hread] at hwithin
    rw [Cursor.run, hread] at hd hinput ⊢
    cases hd
    -- The cursor at the fault lies between the two.
    have hfault := Cursor.input_moveTo hwithin.2
    exact ⟨Cursor.position_le_of_suffix hfault hwithin.2,
      Cursor.position_le_of_suffix (hinput.trans hfault.symm) hwithin.1⟩

/-- The reading of an entry, as that of its reader. -/
theorem run_eq_ofResult (limit : Nat) (c : Cursor) :
    expression.run limit c = (.ofResult .expression (c.run (.expression limit)).1,
      (c.run (.expression limit)).2) ∧
    enclosed.run limit c = (.ofResult .expression (c.run (.enclosed limit)).1,
      (c.run (.enclosed limit)).2) ∧
    accessor.run limit c = (.ofResult .accessor (c.run (.accessor limit)).1,
      (c.run (.accessor limit)).2) := by
  refine ⟨?_, ?_, ?_⟩
  all_goals
    rw [run]
    split
    all_goals
      next h => rw [h]; rfl

/-- Every entry moves the cursor forward only. -/
theorem run_moves (limit : Nat) (c : Cursor) (entry : Entry) :
    Moves c (entry.run limit c).1 (entry.run limit c).2 := by
  obtain ⟨hexpression, henclosed, haccessor⟩ := run_eq_ofResult limit c
  cases entry with
  | expression =>
    rw [hexpression]
    exact moves_run c _ (by simp)
  | enclosed =>
    rw [henclosed]
    exact moves_run c _ (by simp)
  | accessor =>
    rw [haccessor]
    exact moves_run c _ (by simp)

end Entry

/-! ## Calls in a session -/

/-- The reading of entries, one after the other, with a counter of open levels. -/
structure Session where
  /-- Where the next call starts. -/
  cursor : Cursor
  /-- The number of levels that are open. -/
  count : UInt64
  /-- The number of levels that may be open at once. -/
  limit : UInt64

namespace Session

open Entry (Yield)

/-- A session that starts at a cursor, with no level open. -/
def fresh (limit : UInt64) (c : Cursor) : Session :=
  ⟨c, 0, limit⟩

/-- Runs a reader at the cursor and the count of a session. -/
def run (s : Session) (r : CountedReader α) : Except Diagnostic α × Session :=
  match r.read s.count s.cursor.rest with
  | (.done a rest, n) => (.ok a, { s with cursor := s.cursor.moveTo rest, count := n })
  | (.failed fault rest, n) =>
    (.error (s.cursor.diagnose fault), { s with cursor := s.cursor.moveTo rest, count := n })

/-- Reads an entry: what it yields, and the session after it. -/
def call (s : Session) : Entry → Yield × Session
  | .expression => (s.run (.expression s.limit)).map (.ofResult .expression) id
  | .enclosed => (s.run (.enclosed s.limit)).map (.ofResult .expression) id
  | .accessor => (s.run (.accessor s.limit)).map (.ofResult .accessor) id

/-- The session after a sequence of calls, succeeding or failing. -/
def after (s : Session) (entries : List Entry) : Session :=
  entries.foldl (fun s entry => (s.call entry).2) s

/-- A reader that gives the count back only moves the cursor. -/
theorem run_of_agreesAt {s : Session} {r : CountedReader α} {q : Reader α}
    (h : r.AgreesAt s.count q) :
    s.run r = ((s.cursor.run q).1, { s with cursor := (s.cursor.run q).2 }) := by
  rw [run, h s.cursor.rest, Cursor.run]
  cases q s.cursor.rest <;> rfl

/-- A call reads its entry under what the limit leaves at the count, and it keeps the count. -/
theorem call_eq (s : Session) (entry : Entry) :
    s.call entry = ((entry.run (s.limit.toNat - s.count.toNat) s.cursor).1,
      { s with cursor := (entry.run (s.limit.toNat - s.count.toNat) s.cursor).2 }) := by
  obtain ⟨hexpression, henclosed, haccessor⟩ :=
    Entry.run_eq_ofResult (s.limit.toNat - s.count.toNat) s.cursor
  cases entry with
  | expression =>
    rw [call, run_of_agreesAt (CountedReader.expression_agreesAt _ _), hexpression]
    rfl
  | enclosed =>
    rw [call, run_of_agreesAt (CountedReader.enclosed_agreesAt _ _), henclosed]
    rfl
  | accessor =>
    rw [call, run_of_agreesAt (CountedReader.accessor_agreesAt _ _), haccessor]
    rfl

/-- What holds between the calls of a session on an input. -/
structure Settled (input : Text) (limit : UInt64) (s : Session) : Prop where
  count_eq_zero : s.count = 0
  limit_eq : s.limit = limit
  input_eq : s.cursor.input = input

/-- A new session has counted no levels. -/
theorem settled_fresh (limit : UInt64) (c : Cursor) : (fresh limit c).Settled c.input limit :=
  ⟨rfl, rfl, rfl⟩

namespace Settled

variable {input : Text} {limit : UInt64} {s : Session}

/-- Between calls a session is no more than its limit and its cursor. -/
theorem eq_fresh (h : s.Settled input limit) : s = fresh limit s.cursor := by
  obtain ⟨c, n, k⟩ := s
  obtain ⟨rfl, rfl, -⟩ := h
  rfl

/-- Between two calls the whole limit is left. -/
theorem call_eq (h : s.Settled input limit) (entry : Entry) :
    s.call entry = ((entry.run limit.toNat s.cursor).1,
      { s with cursor := (entry.run limit.toNat s.cursor).2 }) := by
  rw [Session.call_eq, h.count_eq_zero, h.limit_eq, UInt64.toNat_zero, Nat.sub_zero]

/-- A call gives back every level it counts. -/
theorem call (h : s.Settled input limit) (entry : Entry) :
    (s.call entry).2.Settled input limit := by
  rw [h.call_eq]
  have hinput := (entry.run_moves limit.toNat s.cursor).input_eq
  exact ⟨h.count_eq_zero, h.limit_eq, hinput.trans h.input_eq⟩

/-- By induction over the calls, a session is settled after each of them. -/
theorem after (h : s.Settled input limit) (entries : List Entry) :
    (s.after entries).Settled input limit := by
  induction entries generalizing s with
  | nil => exact h
  | cons entry entries ih => exact ih (h.call entry)

end Settled

/-- A call is not touched by the calls before it, and leaves nothing but its cursor. -/
structure Isolated (input : String) (limit : UInt64) (s : Session) (entry : Entry) : Prop where
  count_eq_zero : (s.call entry).2.count = 0
  position_le : s.cursor.position ≤ (s.call entry).2.cursor.position
  position_le_size : (s.call entry).2.cursor.position ≤ input.utf8ByteSize
  at_boundary : ∃ before after : String, input = before ++ after ∧
    before.utf8ByteSize = (s.call entry).2.cursor.position
  offset_between : ∀ d, (s.call entry).1 = .diagnostic d →
    s.cursor.position ≤ d.offset ∧ d.offset ≤ (s.call entry).2.cursor.position
  /-- There is a new session where the call starts. -/
  exists_fresh : ∃ m, ((Cursor.start input.toList).advance m).position = s.cursor.position
  /-- The call is that of a new session, wherever it comes from. -/
  call_eq_fresh : ∀ c : Cursor, c.input = input.toList → c.position = s.cursor.position →
    s.call entry = (fresh limit c).call entry
  call_eq_run : ((s.call entry).1, (s.call entry).2.cursor) = entry.run limit.toNat s.cursor

/-- The next call of a settled session is that of a new session at the same place. -/
theorem Settled.isolated {input : String} {limit : UInt64} {s : Session}
    (h : s.Settled input.toList limit) (entry : Entry) : Isolated input limit s entry := by
  have hafter := h.call entry
  have hmoves : Entry.Moves s.cursor (s.call entry).1 (s.call entry).2.cursor := by
    rw [h.call_eq]
    exact entry.run_moves limit.toNat s.cursor
  have hsize : input.utf8ByteSize = Text.byteLength input.toList := by
    rw [Text.byteLength_eq_utf8ByteSize, String.ofList_toList]
  refine ⟨hafter.count_eq_zero, hmoves.position_le, ?_, ?_, hmoves.offset_between, ?_, ?_, ?_⟩
  · rw [hsize, ← hafter.input_eq]
    exact Cursor.position_le_byteLength _
  · refine ⟨.ofList (s.call entry).2.cursor.consumed, .ofList (s.call entry).2.cursor.rest, ?_,
      (Text.byteLength_eq_utf8ByteSize _).symm⟩
    rw [← String.ofList_append, ← String.ofList_toList (s := input), ← hafter.input_eq]
    rfl
  · obtain ⟨m, hm⟩ := s.cursor.exists_advance_eq
    rw [h.input_eq] at hm
    exact ⟨m, by rw [hm]⟩
  · intro c hinput hposition
    rw [Cursor.eq_of_position_eq (hinput.trans h.input_eq.symm) hposition, ← h.eq_fresh]
  · rw [h.call_eq]

/-- After any calls, wherever they start and whatever became of them, the next call is as if it were
the first one: it ends with no level open. The reader that a call runs is the one that checks the
limit, opens a level around itself and closes it again. -/
theorem isolated_after (input : String) (n : Nat) (limit : UInt64) (entries : List Entry)
    (entry : Entry) :
    Isolated input limit
        ((fresh limit ((Cursor.start input.toList).advance n)).after entries) entry ∧
      ∀ r : CountedReader Expr,
        r = .nest limit (Production.expressionOver r) ↔ r = .expression limit := by
  have hinput : ((Cursor.start input.toList).advance n).input = input.toList :=
    Cursor.input_moveTo (List.drop_suffix n _)
  have hfresh := settled_fresh limit ((Cursor.start input.toList).advance n)
  rw [hinput] at hfresh
  exact ⟨(hfresh.after entries).isolated entry, fun _ => CountedReader.eq_nest_iff⟩

/-- A call that fails at the second level, and one that succeeds where it failed. -/
example :
    let s := (fresh 1 (Cursor.start "f(g(1)).x".toList)).after [.expression]
    s.count = 0 ∧ s.cursor.position = 2 ∧
      (s.call .expression).1 = .expression ⟨⟨"g", [.num 1]⟩, []⟩ := by
  decide +kernel

end Session

end BracketExpr
