import BracketExpr.Cursor.Operation
import BracketExpr.Proofs.ByteOffset

/-!
# Cursors at byte offsets

A cursor can be kept as a byte offset of its input. Everything it looks at is then a slice of the
input, and there are slices between character boundaries only: where an operation needs another one,
it has no result. The offset moves by the sizes of single characters, by the byte length of a name
and by that of a keyword, and nothing in these moves knows about boundaries.
-/

namespace BracketExpr

/-- A byte offset of an input. -/
structure ByteCursor where
  input : Text
  position : Nat
  deriving DecidableEq, Repr

namespace ByteCursor

/-! ## Operations -/

/-- The offset at the start of an input. -/
def start (input : Text) : ByteCursor :=
  ⟨input, 0⟩

/-- The offset `n` bytes ahead. -/
def forward (b : ByteCursor) (n : Nat) : ByteCursor :=
  { b with position := b.position + n }

/-- The slice of the input from the offset on. -/
def rest? (b : ByteCursor) : Option Text :=
  b.input.dropBytes? b.position

def atEnd (b : ByteCursor) : Bool :=
  b.input.byteLength ≤ b.position

def current? (b : ByteCursor) : Option (Option Char) :=
  b.rest?.map List.head?

def peek? (b : ByteCursor) (k : Nat) : Option (Option Char) :=
  b.rest?.map fun rest => rest[k]?

def advance? (b : ByteCursor) : Option ByteCursor := do
  match ← b.current? with
  | none => return b
  | some c => return b.forward c.utf8Size

/-- The current character lies within the input, so going past it does not go beyond the end. -/
theorem position_add_le_of_current? {b : ByteCursor} {c : Char} (h : b.current? = some (some c)) :
    b.position + c.utf8Size ≤ b.input.byteLength := by
  obtain ⟨rest, hrest, hhead⟩ := Option.map_eq_some_iff.1 h
  obtain ⟨t, rfl⟩ := List.head?_eq_some_iff.1 hhead
  obtain ⟨before, hinput, hbefore⟩ := Text.dropBytes?_eq_some.1 hrest
  rw [hinput, Text.byteLength_append, Text.byteLength_cons]
  omega

/-- Goes on while the current character belongs to the class `p`. -/
def advanceWhile? (p : Char → Bool) (b : ByteCursor) : Option ByteCursor :=
  match _h : b.current? with
  | none => none
  | some none => some b
  | some (some c) => if p c then advanceWhile? p (b.forward c.utf8Size) else some b
termination_by b.input.byteLength - b.position
decreasing_by
  have hle := position_add_le_of_current? _h
  have hc := c.utf8Size_pos
  simp only [forward]
  omega

/-- At the end of the input the loop stops. -/
theorem advanceWhile?_of_end {p : Char → Bool} {b : ByteCursor} (h : b.current? = some none) :
    b.advanceWhile? p = some b := by
  rw [advanceWhile?]
  split <;> simp_all

/-- One turn of the loop. -/
theorem advanceWhile?_of_char {p : Char → Bool} {b : ByteCursor} {c : Char}
    (h : b.current? = some (some c)) :
    b.advanceWhile? p = if p c then (b.forward c.utf8Size).advanceWhile? p else some b := by
  rw [advanceWhile?]
  split <;> simp_all

/-- Goes past the character `c` if it is the current one, and tells whether it did. -/
def eat? (c : Char) (b : ByteCursor) : Option (Bool × ByteCursor) := do
  if (← b.current?) = some c then
    return (true, ← b.advance?)
  else
    return (false, b)

/-- The diagnostic at a byte offset shows the first character of the slice from there on. -/
def diagnoseAt? (kind : FaultKind) (offset : Nat) (b : ByteCursor) : Option Diagnostic := do
  let rest ← b.input.dropBytes? offset
  return ⟨kind, offset, rest.head?.map fun c => String.ofList [c]⟩

/-- Takes the lexeme that `scan` finds: the slice of its byte length. -/
def lexeme? (scan : Text → Text) (b : ByteCursor) : Option (Option String × ByteCursor) := do
  let rest ← b.rest?
  if scan rest = [] then
    return (none, b)
  else
    let name ← rest.takeBytes? (Text.byteLength (scan rest))
    return (some (String.ofList name), b.forward (Text.byteLength (scan rest)))

/-- Whether the slice behind a function name starts, after blanks, with a parenthesis. -/
def atCall? (b : ByteCursor) : Option Bool := do
  let rest ← b.rest?
  if functionNameAt rest = [] then
    return false
  else
    let behind ← rest.dropBytes? (Text.byteLength (functionNameAt rest))
    return behind.skipBlanks.head? == some '('

/-- Goes past a sign and digits; the slice between the two offsets is the text of the number. -/
def number? (b : ByteCursor) : Option (Except Diagnostic Int64 × ByteCursor) := do
  let (_, digits) ← b.eat? '-'
  let stop ← digits.advanceWhile? Char.isDigit
  let text ← b.input.slice? b.position stop.position
  let invalid : Diagnostic := ⟨.invalidNumber, b.position, some (String.ofList text)⟩
  if stop.position = digits.position then
    return (.error invalid, stop)
  else
    match (Numeral.value? text).bind Numeral.int64? with
    | some n => return (.ok n, stop)
    | none => return (.error invalid, stop)

/-- The boolean that a text starts with, whether or not the word ends there. -/
def keywordAt? (s : Text) : Option Bool :=
  if (booleanText true).isPrefixOf s then some true
  else if (booleanText false).isPrefixOf s then some false
  else none

/-- Goes past a keyword by its byte length, unless the slice behind it goes on with the word. -/
def boolean? (b : ByteCursor) : Option (Option Bool × ByteCursor) := do
  let rest ← b.rest?
  match keywordAt? rest with
  | none => return (none, b)
  | some value =>
    let behind ← rest.dropBytes? (Text.byteLength (booleanText value))
    if behind.head?.any isWordChar then
      return (none, b)
    else
      return (some value, b.forward (Text.byteLength (booleanText value)))

/-- A keyword that is found is the start of the text. -/
theorem exists_append_of_keywordAt? {s : Text} {value : Bool} (h : keywordAt? s = some value) :
    ∃ behind, s = booleanText value ++ behind := by
  simp only [keywordAt?, List.isPrefixOf_iff_prefix] at h
  split at h
  next hprefix =>
    cases h
    exact hprefix.imp fun _ => Eq.symm
  next =>
    split at h
    next hprefix =>
      cases h
      exact hprefix.imp fun _ => Eq.symm
    next => cases h

/-- Where no keyword is found no boolean is read. -/
theorem boolean_read_of_keywordAt?_eq_none {s : Text} (h : keywordAt? s = none) :
    Reader.boolean s = .done none s := by
  simp only [keywordAt?] at h
  split at h
  next => cases h
  next htrue =>
    split at h
    next => cases h
    next hfalse =>
      rw [Bool.not_eq_true] at htrue hfalse
      simp only [Reader.boolean, isWordAt, htrue, hfalse, Bool.false_and]
      rfl

/-- Goes on behind an opening quote to the closing one, or to the end of the input: the text that is
quoted, if it is closed. -/
def quotedBody? (b : ByteCursor) : Option (Option Text × ByteCursor) :=
  match _h : b.current? with
  | none => none
  | some none => some (none, b)
  | some (some c) =>
    if c = '\x27' then
      match (b.forward c.utf8Size).current? with
      | none => none
      | some (some '\x27') =>
        ((b.forward c.utf8Size).forward c.utf8Size).quotedBody?.map fun p =>
          (p.1.map fun v => '\x27' :: v, p.2)
      | some _ => some (some [], b.forward c.utf8Size)
    else
      (b.forward c.utf8Size).quotedBody?.map fun p => (p.1.map fun v => c :: v, p.2)
termination_by b.input.byteLength - b.position
decreasing_by
  all_goals
    have hle := position_add_le_of_current? _h
    have hc := c.utf8Size_pos
    simp only [forward]
    omega

/-- A quoted text that reaches the end of the input is not closed. -/
theorem quotedBody?_of_end {b : ByteCursor} (h : b.current? = some none) :
    b.quotedBody? = some (none, b) := by
  rw [quotedBody?]
  split <;> simp_all

/-- A character other than a quote stands for itself. -/
theorem quotedBody?_of_ne {b : ByteCursor} {c : Char} (h : b.current? = some (some c))
    (hc : c ≠ '\x27') :
    b.quotedBody? = (b.forward c.utf8Size).quotedBody?.map fun p =>
      (p.1.map fun v => c :: v, p.2) := by
  rw [quotedBody?]
  split <;> simp_all

/-- Two quotes in a row stand for one. -/
theorem quotedBody?_of_doubled {b : ByteCursor} {c : Char} (h : b.current? = some (some c))
    (hc : c = '\x27') (h' : (b.forward c.utf8Size).current? = some (some c)) :
    b.quotedBody? = ((b.forward c.utf8Size).forward c.utf8Size).quotedBody?.map fun p =>
      (p.1.map fun v => c :: v, p.2) := by
  rw [quotedBody?]
  split <;> simp_all

/-- A quote with something else behind it closes the text. -/
theorem quotedBody?_of_closed {b : ByteCursor} {c : Char} {c? : Option Char}
    (h : b.current? = some (some c)) (hc : c = '\x27')
    (h' : (b.forward c.utf8Size).current? = some c?) (hne : c? ≠ some c) :
    b.quotedBody? = some (some [], b.forward c.utf8Size) := by
  rw [quotedBody?]
  split <;> simp_all

/-- Goes past a quoted text. If it is not closed, the slice from its opening quote on is shown. -/
def quoted? (b : ByteCursor) : Option (Except Diagnostic String × ByteCursor) := do
  let (isOpen, inside) ← b.eat? '\x27'
  if isOpen then
    match ← inside.quotedBody? with
    | (some v, stop) => return (.ok (String.ofList v), stop)
    | (none, stop) =>
      let found ← b.rest?
      return (.error ⟨.unterminatedString, b.position, some (String.ofList found)⟩, stop)
  else
    let d ← b.diagnoseAt? .invalidArgument b.position
    return (.error d, b)

end ByteCursor

/-- The answer for the result of a reading. -/
def Cursor.Answer.ofResult {α : Type} (present : α → Answer) : Except Diagnostic α → Answer
  | .ok a => present a
  | .error d => .diagnostic d

namespace ByteCursor

open Cursor (Answer Operation)

/-- Performs one operation: its answer and the offset after it, if it slices at boundaries only. -/
def perform? (b : ByteCursor) : Operation → Option (Answer × ByteCursor)
  | .position => some (.offset b.position, b)
  | .atEnd => some (.truth b.atEnd, b)
  | .current => b.current?.map fun c => (.character c, b)
  | .peek k => (b.peek? k).map fun c => (.character c, b)
  | .advance => b.advance?.map fun stop => (.moved, stop)
  | .skipBlanks => (b.advanceWhile? isBlank).map fun stop => (.moved, stop)
  | .eat c => (b.eat? c).map fun p => (.truth p.1, p.2)
  | .diagnose kind => (b.diagnoseAt? kind b.position).map fun d => (.diagnostic d, b)
  | .diagnoseAt kind offset => (b.diagnoseAt? kind offset).map fun d => (.diagnostic d, b)
  | .functionName => (b.lexeme? functionNameAt).map fun p => (.name p.1, p.2)
  | .memberName => (b.lexeme? memberNameAt).map fun p => (.name p.1, p.2)
  | .atCall => b.atCall?.map fun found => (.truth found, b)
  | .number => b.number?.map fun p => (.ofResult .number p.1, p.2)
  | .boolean => b.boolean?.map fun p => (.boolean p.1, p.2)
  | .quoted => b.quoted?.map fun p => (.ofResult .text p.1, p.2)

/-- Performs operations one after the other, if all of them slice at boundaries only. -/
def performAll? (b : ByteCursor) : List Operation → Option (List (Answer × ByteCursor))
  | [] => some []
  | op :: ops => do
    let step ← b.perform? op
    let steps ← step.2.performAll? ops
    return step :: steps

end ByteCursor

end BracketExpr
