import BracketExpr.Proofs.ByteCursorAgreement
import BracketExpr.Proofs.Session
import BracketExpr.Proofs.Simulation

/-!
# Reading expressions at byte offsets

A cursor knows the text ahead of it and nothing else. Here the productions of expressions are run
over byte offsets of the whole input, where every operation takes its own slices and could look at
any part of the input; an operation whose slice is off a character boundary leaves the reading
without a result.

Main statement: at the byte offset of a cursor every entry has a result, which is its yield at the
cursor, and it ends at the byte offset of the cursor after it.
-/

namespace BracketExpr

variable {α β : Type}

/-! ## Offsets that are reached -/

namespace ByteCursor

/-- The offset `stop` is at or behind `b` in the same input. -/
structure Reaches (b stop : ByteCursor) : Prop where
  input_eq : stop.input = b.input
  position_le : b.position ≤ stop.position

namespace Reaches

variable {b mid stop : ByteCursor}

theorem refl (b : ByteCursor) : b.Reaches b :=
  ⟨rfl, Nat.le_refl _⟩

theorem trans (h : b.Reaches mid) (h' : mid.Reaches stop) : b.Reaches stop :=
  ⟨h'.input_eq.trans h.input_eq, Nat.le_trans h.position_le h'.position_le⟩

theorem forward (b : ByteCursor) (n : Nat) : b.Reaches (b.forward n) :=
  ⟨rfl, Nat.le_add_right _ _⟩

end Reaches

variable {b stop : ByteCursor}

/-- Going past the current character reaches an offset behind it, or stays at the end. -/
theorem advance?_reaches (h : b.advance? = some stop) : b.Reaches stop := by
  obtain ⟨c?, -, h⟩ := Option.bind_eq_some_iff.1 h
  cases c? with
  | none =>
    cases h
    exact .refl b
  | some c =>
    cases h
    exact .forward b _

/-- A loop goes forward with each of its turns. -/
theorem advanceWhile?_reaches {p : Char → Bool} (h : b.advanceWhile? p = some stop) :
    b.Reaches stop := by
  fun_induction advanceWhile? p b with
  | case1 => cases h
  | case2 =>
    cases h
    exact .refl _
  | case3 b c hc hp ih => exact .trans (.forward b _) (ih h)
  | case4 =>
    cases h
    exact .refl _

theorem eat?_reaches {c : Char} {found : Bool} (h : b.eat? c = some (found, stop)) :
    b.Reaches stop := by
  obtain ⟨c?, -, h⟩ := Option.bind_eq_some_iff.1 h
  split at h
  · obtain ⟨stop', hstop, h⟩ := Option.bind_eq_some_iff.1 h
    cases h
    exact advance?_reaches hstop
  · cases h
    exact .refl b

theorem lexeme?_reaches {scan : Text → Text} {name? : Option String}
    (h : b.lexeme? scan = some (name?, stop)) : b.Reaches stop := by
  obtain ⟨rest, -, h⟩ := Option.bind_eq_some_iff.1 h
  split at h
  · cases h
    exact .refl b
  · obtain ⟨name, -, h⟩ := Option.bind_eq_some_iff.1 h
    cases h
    exact .forward b _

/-- A number is passed, even if it turns out not to be one. -/
theorem number?_reaches {result : Except Diagnostic Int64} (h : b.number? = some (result, stop)) :
    b.Reaches stop := by
  obtain ⟨⟨sign, digits⟩, hsign, h⟩ := Option.bind_eq_some_iff.1 h
  obtain ⟨stop', hdigits, h⟩ := Option.bind_eq_some_iff.1 h
  obtain ⟨text, -, h⟩ := Option.bind_eq_some_iff.1 h
  have hreaches := (eat?_reaches hsign).trans (advanceWhile?_reaches hdigits)
  dsimp only at h
  split at h
  · cases h
    exact hreaches
  · split at h
    · cases h
      exact hreaches
    · cases h
      exact hreaches

theorem boolean?_reaches {b? : Option Bool} (h : b.boolean? = some (b?, stop)) :
    b.Reaches stop := by
  obtain ⟨rest, -, h⟩ := Option.bind_eq_some_iff.1 h
  split at h
  · cases h
    exact .refl b
  · obtain ⟨behind, -, h⟩ := Option.bind_eq_some_iff.1 h
    split at h
    · cases h
      exact .refl b
    · cases h
      exact .forward b _

/-- The loop over a quoted text goes forward with each character and each pair of quotes. -/
theorem quotedBody?_reaches {v? : Option Text} (h : b.quotedBody? = some (v?, stop)) :
    b.Reaches stop := by
  fun_induction quotedBody? b generalizing v? with
  | case1 => cases h
  | case2 =>
    cases h
    exact .refl _
  | case3 => cases h
  | case4 b hquote hnext ih =>
    obtain ⟨⟨v, stop'⟩, hrest, h⟩ := Option.map_eq_some_iff.1 h
    cases h
    exact .trans (.trans (.forward b _) (.forward _ _)) (ih hrest)
  | case5 b =>
    cases h
    exact .forward b _
  | case6 b c hc hquote ih =>
    obtain ⟨⟨v, stop'⟩, hrest, h⟩ := Option.map_eq_some_iff.1 h
    cases h
    exact .trans (.forward b _) (ih hrest)

theorem quoted?_reaches {result : Except Diagnostic String} (h : b.quoted? = some (result, stop)) :
    b.Reaches stop := by
  obtain ⟨⟨isOpen, inside⟩, hopen, h⟩ := Option.bind_eq_some_iff.1 h
  dsimp only at h
  split at h
  · obtain ⟨⟨v?, stop'⟩, hbody, h⟩ := Option.bind_eq_some_iff.1 h
    have hreaches := (eat?_reaches hopen).trans (quotedBody?_reaches hbody)
    cases v? with
    | some v =>
      cases h
      exact hreaches
    | none =>
      obtain ⟨found, -, h⟩ := Option.bind_eq_some_iff.1 h
      cases h
      exact hreaches
  · obtain ⟨d, -, h⟩ := Option.bind_eq_some_iff.1 h
    cases h
    exact .refl b

end ByteCursor

/-! ## Readers at byte offsets -/

/-- A reader at byte offsets of an input. It has no result if one of its slices is off a
boundary. -/
structure ByteReader (α : Type) where
  /-- Reads a value at an offset, and gives the offset after that. -/
  run? : ByteCursor → Option (Except Diagnostic α × ByteCursor)
  /-- Reading goes forward in the same input. -/
  reaches : ∀ {b result stop}, run? b = some (result, stop) → b.Reaches stop

namespace ByteReader

open ByteCursor (position_add_le_of_current?)

/-- Gives a value and reads nothing. -/
protected def pure (a : α) : ByteReader α where
  run? b := some (.ok a, b)
  reaches h := by
    cases h
    exact .refl _

/-- Reads with `r`, then goes on with `f` at the offset after that. -/
protected def bind (r : ByteReader α) (f : α → ByteReader β) : ByteReader β where
  run? b :=
    match r.run? b with
    | none => none
    | some (.ok a, mid) => (f a).run? mid
    | some (.error d, stop) => some (.error d, stop)
  reaches h := by
    split at h
    next => cases h
    next a mid hr => exact (r.reaches hr).trans ((f a).reaches h)
    next hr =>
      cases h
      exact r.reaches hr

instance : Monad ByteReader where
  pure := ByteReader.pure
  bind := ByteReader.bind

/-- A sequence runs its second part at the offset where the first one stops. -/
theorem bind_run? (r : ByteReader α) (f : α → ByteReader β) (b : ByteCursor) :
    (r >>= f).run? b =
      match r.run? b with
      | none => none
      | some (.ok a, mid) => (f a).run? mid
      | some (.error d, stop) => some (.error d, stop) := rfl

/-- What is found out at an offset, which stays as it is. -/
def look (find? : ByteCursor → Option α) : ByteReader α where
  run? b := (find? b).map fun a => (.ok a, b)
  reaches h := by
    obtain ⟨a, -, h⟩ := Option.map_eq_some_iff.1 h
    cases h
    exact .refl _

/-- What is taken at an offset without a fault. -/
def take (take? : ByteCursor → Option (α × ByteCursor))
    (reaches : ∀ {b a stop}, take? b = some (a, stop) → b.Reaches stop) : ByteReader α where
  run? b := (take? b).map fun p => (.ok p.1, p.2)
  reaches h := by
    obtain ⟨⟨a, stop⟩, htake, h⟩ := Option.map_eq_some_iff.1 h
    cases h
    exact reaches htake

/-- Fails at the current offset, showing the current character. -/
def fail (kind : FaultKind) : ByteReader α where
  run? b := (b.diagnoseAt? kind b.position).map fun d => (.error d, b)
  reaches h := by
    obtain ⟨d, -, h⟩ := Option.map_eq_some_iff.1 h
    cases h
    exact .refl _

/-- Moves an offset on. -/
def move (move? : ByteCursor → Option ByteCursor)
    (reaches : ∀ {b stop}, move? b = some stop → b.Reaches stop) : ByteReader Unit where
  run? b := (move? b).map fun stop => (.ok (), stop)
  reaches h := by
    obtain ⟨stop, hmove, h⟩ := Option.map_eq_some_iff.1 h
    cases h
    exact reaches hmove

/-- The operations of a lexer at an offset. -/
def lexing : Lexing α → ByteReader α
  | .current => look ByteCursor.current?
  | .advance => move ByteCursor.advance? ByteCursor.advance?_reaches
  | .skipBlanks => move (ByteCursor.advanceWhile? isBlank) ByteCursor.advanceWhile?_reaches
  | .eat c => take (ByteCursor.eat? c) ByteCursor.eat?_reaches
  | .functionName => take (ByteCursor.lexeme? functionNameAt) ByteCursor.lexeme?_reaches
  | .memberName => take (ByteCursor.lexeme? memberNameAt) ByteCursor.lexeme?_reaches
  | .atCall => look ByteCursor.atCall?
  | .number => ⟨ByteCursor.number?, ByteCursor.number?_reaches⟩
  | .boolean => take ByteCursor.boolean? ByteCursor.boolean?_reaches
  | .quoted => ⟨ByteCursor.quoted?, ByteCursor.quoted?_reaches⟩

/-- Reads items for as long as the next character opens one. -/
def chainFrom? (next : Char → Option (ByteReader α)) (b : ByteCursor) :
    Option (Except Diagnostic (List α) × ByteCursor) :=
  match _h : b.current? with
  | none => none
  | some none => some (.ok [], b)
  | some (some c) =>
    match next c with
    | none => some (.ok [], b)
    | some item =>
      match _hitem : item.run? (b.forward c.utf8Size) with
      | none => none
      | some (.error d, stop) => some (.error d, stop)
      | some (.ok a, mid) =>
        match chainFrom? next mid with
        | none => none
        | some (.error d, stop) => some (.error d, stop)
        | some (.ok as, stop) => some (.ok (a :: as), stop)
termination_by b.input.byteLength - b.position
decreasing_by
  obtain ⟨hinput, hposition⟩ := item.reaches _hitem
  have hle := position_add_le_of_current? _h
  have hc := c.utf8Size_pos
  rw [hinput]
  simp only [ByteCursor.forward] at hposition ⊢
  omega

/-- Chains go forward, since each of their items does. -/
theorem chainFrom?_reaches {next : Char → Option (ByteReader α)} {b stop : ByteCursor}
    {result : Except Diagnostic (List α)} (h : chainFrom? next b = some (result, stop)) :
    b.Reaches stop := by
  fun_induction chainFrom? next b generalizing result with
  | case1 => cases h
  | case2 =>
    cases h
    exact .refl _
  | case3 =>
    cases h
    exact .refl _
  | case4 => cases h
  | case5 b c hc item hnext d stop' hitem =>
    cases h
    exact .trans (.forward b _) (item.reaches hitem)
  | case6 => cases h
  | case7 b c hc item hnext a mid hitem d stop' hrest ih =>
    cases h
    exact .trans (.forward b _) (.trans (item.reaches hitem) (ih hrest))
  | case8 b c hc item hnext a mid hitem as stop' hrest ih =>
    cases h
    exact .trans (.forward b _) (.trans (item.reaches hitem) (ih hrest))

/-- The reader of a chain of items, each announced by its opening character. -/
def chain (next : Char → Option (ByteReader α)) : ByteReader (List α) where
  run? := chainFrom? next
  reaches := chainFrom?_reaches

section

variable {next : Char → Option (ByteReader α)} {b : ByteCursor} {c : Char}

/-- A chain ends with the input. -/
theorem chainFrom?_of_end (h : b.current? = some none) : chainFrom? next b = some (.ok [], b) := by
  rw [chainFrom?]
  split <;> simp_all

/-- A chain ends where the next character opens no item. -/
theorem chainFrom?_of_none (h : b.current? = some (some c)) (hnext : next c = none) :
    chainFrom? next b = some (.ok [], b) := by
  rw [chainFrom?]
  split <;> simp_all

/-- A chain whose next character opens an item reads the item and then the rest of the chain. -/
theorem chainFrom?_of_some {item : ByteReader α} (h : b.current? = some (some c))
    (hnext : next c = some item) :
    chainFrom? next b =
      (do let a ← item; let as ← chain next; return a :: as).run? (b.forward c.utf8Size) := by
  rw [chainFrom?]
  split
  next h' => cases h.symm.trans h'
  next h' => cases h.symm.trans h'
  next c' h' =>
    cases h.symm.trans h'
    split
    next hnext' => cases hnext.symm.trans hnext'
    next item' hnext' =>
      cases hnext.symm.trans hnext'
      split
      next hitem => rw [bind_run?, hitem]
      next hitem => rw [bind_run?, hitem]
      next a mid hitem =>
        have hchain : (chain next).run? mid = chainFrom? next mid := rfl
        rw [bind_run?, hitem]
        dsimp only
        rw [bind_run?, hchain]
        rcases chainFrom? next mid with _ | ⟨_ | _, _⟩ <;> rfl

end

instance : Lexer ByteReader where
  lex := lexing
  fail := fail
  chain := chain

/-- Reads an expression that may open at most `limit` levels of nesting, itself included. -/
def expression : (limit : Nat) → ByteReader Expr
  | 0 => fail .maxDepthExceeded
  | limit + 1 => Production.expressionOver (expression limit)

/-! ## Agreement -/

/-- At the byte offset of the cursor `c`, the reader `r` has the result that `q` has at the cursor,
and it stops at the offset of the cursor where `q` stops. -/
def AgreesAt (c : Cursor) (r : ByteReader α) (q : Reader α) : Prop :=
  r.run? c.bytes = some ((c.run q).1, (c.run q).2.bytes)

namespace AgreesAt

variable {c : Cursor} {r : ByteReader α} {q : Reader α}

/-- A reader that succeeds agrees if it gives the same value and stops at the same place. -/
theorem of_done {a : α} {rest : Text} (hread : q c.rest = .done a rest)
    (h : r.run? c.bytes = some (.ok a, (c.moveTo rest).bytes)) : AgreesAt c r q := by
  rw [AgreesAt, Cursor.run_of_done hread, h]

/-- Sequences agree if their parts do, the second one where the first one stops. -/
theorem bind {f : α → ByteReader β} {g : α → Reader β} (h : AgreesAt c r q)
    (hf : ∀ a c', c.run q = (.ok a, c') → AgreesAt c' (f a) (g a)) :
    AgreesAt c (r >>= f) (q >>= g) := by
  rw [AgreesAt, bind_run?, h, Cursor.run_bind]
  cases hrun : c.run q with
  | mk result c' =>
    cases result with
    | ok a => exact hf a c' hrun
    | error d => rfl

theorem pure (a : α) (c : Cursor) : AgreesAt c (Pure.pure a) (Pure.pure a) :=
  .of_done (Reader.pure_read a c.rest) (by rw [Cursor.moveTo_rest]; rfl)

/-- A failure shows the character at the offset. -/
theorem fail (kind : FaultKind) (c : Cursor) :
    AgreesAt c (.fail kind : ByteReader α) (.fail kind) := by
  have hdiagnose := c.diagnoseAt?_position_bytes kind
  rw [AgreesAt, Cursor.run_of_failed (Reader.fail_read kind c.rest), Cursor.moveTo_rest]
  simp [ByteReader.fail, hdiagnose]

/-- Each operation takes its slices between character boundaries. -/
theorem lexing (op : Lexing α) (c : Cursor) : AgreesAt c (lexing op) (Reader.lexing op) := by
  cases op with
  | current =>
    refine .of_done (Reader.current_read c.rest) ?_
    simp [ByteReader.lexing, look, Cursor.current]
  | advance =>
    refine .of_done (Reader.advance_read c.rest) ?_
    simp [ByteReader.lexing, move, Cursor.advance?_bytes]
  | skipBlanks =>
    refine .of_done (Reader.skipBlanks_read c.rest) ?_
    simp [ByteReader.lexing, move, Cursor.advanceWhile?_bytes, Text.skipBlanks]
  | eat ch =>
    refine .of_done (Reader.eat_read ch c.rest) ?_
    simp [ByteReader.lexing, take, Cursor.eat?_bytes]
  | functionName =>
    obtain ⟨name?, rest, hread⟩ := Reader.exists_lexeme_read functionNameAt c.rest
    refine .of_done hread ?_
    simp [ByteReader.lexing, take, Cursor.lexeme?_bytes functionNameAt_isPrefix hread]
  | memberName =>
    obtain ⟨name?, rest, hread⟩ := Reader.exists_lexeme_read memberNameAt c.rest
    have hprefix (s : Text) : memberNameAt s <+: s := List.takeWhile_prefix isMemberChar
    refine .of_done hread ?_
    simp [ByteReader.lexing, take, Cursor.lexeme?_bytes hprefix hread]
  | atCall =>
    refine .of_done (Reader.atCall_read c.rest) ?_
    simp [ByteReader.lexing, look, Cursor.atCall?_bytes]
  | number => exact Cursor.number?_bytes
  | boolean =>
    obtain ⟨b?, rest, hread⟩ := Reader.exists_boolean_read c.rest
    refine .of_done hread ?_
    simp [ByteReader.lexing, take, Cursor.boolean?_bytes hread]
  | quoted => exact Cursor.quoted?_bytes

/-- Chains agree if their items do, by induction on the text that is left. -/
theorem chain {next : Char → Option (ByteReader α)} {next' : Char → Option (Reader α)}
    (h : ∀ ch, Option.Rel (fun r q => ∀ c, AgreesAt c r q) (next ch) (next' ch)) (w s : Text) :
    AgreesAt ⟨w, s⟩ (chain next) (Reader.chain next') := by
  induction s using Text.induction_by_length generalizing w with
  | nil =>
    refine .of_done (Reader.chainFrom_of_stop (by simp)) ?_
    rw [Cursor.moveTo_rest]
    exact chainFrom?_of_end (Cursor.current?_bytes _)
  | cons ch s ih =>
    cases hnext' : next' ch with
    | none =>
      have hnext := eq_none_of_rel_none (hnext' ▸ h ch)
      have hread : Reader.chain next' (ch :: s) = .done [] (ch :: s) := by
        refine Reader.chainFrom_of_stop fun d hd => ?_
        obtain rfl := Option.some.inj hd
        exact hnext'
      refine .of_done hread ?_
      rw [Cursor.moveTo_rest]
      exact chainFrom?_of_none (Cursor.current?_bytes _) hnext
    | some item' =>
      obtain ⟨item, hnext, hitem⟩ := exists_of_rel_some (hnext' ▸ h ch)
      -- Both chains go on behind the opening character.
      have hrun := Cursor.run_eq_run_moveTo (c := ⟨w, ch :: s⟩) (r := Reader.chain next')
        (List.suffix_cons ch s) (Reader.chainFrom_cons_of_some hnext' s)
      have hmove : (Cursor.mk w (ch :: s)).moveTo s = ⟨w ++ [ch], s⟩ :=
        Cursor.moveTo_append w [ch] s
      have hrun? : (ByteReader.chain next).run? (Cursor.mk w (ch :: s)).bytes = _ :=
        chainFrom?_of_some (Cursor.current?_bytes _) hnext
      rw [AgreesAt, hrun, hrun?, hmove, Cursor.forward_bytes_cons]
      refine bind (hitem _) fun a c' hc' => bind ?_ fun as c'' _ => pure _ _
      have hwithin := item'.within s
      rw [Cursor.read_of_run_eq_ok hc'] at hwithin
      exact ih c'.rest (List.IsSuffix.length_le hwithin) c'.consumed

end AgreesAt

/-- Agreement at every cursor is a simulation, so it passes to the productions. -/
def agreement : Simulation ByteReader Reader where
  Rel r q := ∀ c, AgreesAt c r q
  pure := .pure
  bind h hf c := (h c).bind fun a c' _ => hf a c'
  lex := .lexing
  fail := .fail
  chain h c := .chain h c.consumed c.rest

/-- Expressions agree, by induction on the levels that may be opened. -/
theorem expression_agreesAt (limit : Nat) (c : Cursor) :
    AgreesAt c (expression limit) (.expression limit) := by
  induction limit generalizing c with
  | zero => exact .fail .maxDepthExceeded c
  | succ limit ih => exact agreement.expressionOver ih c

end ByteReader

/-! ## Entries -/

namespace Entry

/-- Reads an entry at a byte offset, if all slices are between boundaries. -/
def run? (limit : Nat) (b : ByteCursor) : Entry → Option (Yield × ByteCursor)
  | expression =>
    ((ByteReader.expression limit).run? b).map fun p => (.ofResult .expression p.1, p.2)
  | enclosed =>
    ((Production.enclosing (ByteReader.expression limit)).run? b).map fun p =>
      (.ofResult .expression p.1, p.2)
  | accessor =>
    ((Production.steps (ByteReader.expression limit)).run? b).map fun p =>
      (.ofResult .accessor p.1, p.2)

/-- At the byte offset of a cursor, an entry is read as it is at the cursor: nothing but the text
ahead has a part in it. -/
theorem run?_bytes (limit : Nat) (c : Cursor) (entry : Entry) :
    entry.run? limit c.bytes = some ((entry.run limit c).1, (entry.run limit c).2.bytes) := by
  have hnested := ByteReader.expression_agreesAt limit
  obtain ⟨hexpression, henclosed, haccessor⟩ := run_eq_ofResult limit c
  cases entry with
  | expression => rw [run?, hnested c, hexpression, Option.map_some]
  | enclosed =>
    have h : ByteReader.AgreesAt c _ _ := ByteReader.agreement.enclosing hnested c
    rw [run?, h, henclosed, Option.map_some]
    rfl
  | accessor =>
    have h : ByteReader.AgreesAt c _ _ := ByteReader.agreement.steps hnested c
    rw [run?, h, haccessor, Option.map_some]
    rfl

end Entry

end BracketExpr
