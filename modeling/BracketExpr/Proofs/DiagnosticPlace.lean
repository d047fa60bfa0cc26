import BracketExpr.Classify
import BracketExpr.Proofs.ByteOffset
import BracketExpr.Proofs.FaultPlace

/-!
# Diagnostics point at real text

The byte offset of a diagnostic is a character boundary of the input, behind its opening bracket,
and what the diagnostic shows stands at the offset. A rendering therefore puts its caret under the
character that is shown first, or behind the end of the line where there is no such character.

Faults carry the text from their point on, so all of this is first said about an input that is cut
into the texts before and after the point.
-/

namespace BracketExpr

/-! ## Lines -/

namespace Text

/-- Between `above` and `below` stands a whole line. -/
structure IsLineBetween (line above below : Text) : Prop where
  noBreak : '\n' ∉ line
  above : ∀ c, above.getLast? = some c → c = '\n'
  below : ∀ c, below.head? = some c → c = '\n'

theorem lineFeed_not_mem_firstLine (s : Text) : '\n' ∉ firstLine s := by
  intro h
  have hne := List.all_eq_true.1 List.all_takeWhile _ h
  simp at hne

/-- The first line ends at a line feed or with the text. -/
theorem exists_firstLine_append (s : Text) :
    ∃ below : Text, s = firstLine s ++ below ∧ ∀ c, below.head? = some c → c = '\n' := by
  refine ⟨s.dropWhile (· != '\n'), List.takeWhile_append_dropWhile.symm, fun c hc => ?_⟩
  have hstop := List.head?_dropWhile_not (· != '\n') s
  rw [hc] at hstop
  simpa using hstop

theorem lineFeed_not_mem_lastLine (s : Text) : '\n' ∉ lastLine s := by
  rw [lastLine, List.mem_reverse]
  exact lineFeed_not_mem_firstLine s.reverse

/-- The last line starts behind a line feed or with the text. -/
theorem exists_append_lastLine (s : Text) :
    ∃ above : Text, s = above ++ lastLine s ∧ ∀ c, above.getLast? = some c → c = '\n' := by
  obtain ⟨above, hs, habove⟩ := exists_firstLine_append s.reverse
  refine ⟨above.reverse, ?_, fun c hc => habove c ?_⟩
  · rw [lastLine, ← List.reverse_append, ← hs, List.reverse_reverse]
  · rwa [List.getLast?_reverse] at hc

/-- The line around the point between two texts. -/
theorem exists_line_around (before after : Text) :
    ∃ above below : Text, before = above ++ lastLine before ∧ after = firstLine after ++ below ∧
      (lastLine before ++ firstLine after).IsLineBetween above below := by
  obtain ⟨above, hbefore, habove⟩ := exists_append_lastLine before
  obtain ⟨below, hafter, hbelow⟩ := exists_firstLine_append after
  refine ⟨above, below, hbefore, hafter, ?_, habove, hbelow⟩
  intro h
  rcases List.mem_append.1 h with h | h
  · exact lineFeed_not_mem_lastLine before h
  · exact lineFeed_not_mem_firstLine after h

end Text

/-! ## Diagnostics -/

namespace Diagnostic

/-- Two lines: a line of text, and a caret below its column `k`, counted from zero. -/
def quotation (line : Text) (k : Nat) : Text :=
  line ++ '\n' :: (List.replicate k ' ' ++ ['^', '\n'])

/-- The first character that a diagnostic shows. -/
def firstFound? (d : Diagnostic) : Option Char :=
  d.found.bind fun t => t.toList.head?

/-- The diagnostic stands at the point between two texts and shows what comes after it. -/
structure StandsBetween (d : Diagnostic) (before after : Text) : Prop where
  offset_eq : d.offset = Text.byteLength before
  found_eq_none : d.found = none ↔ after = []
  found_isPrefix : ∀ t, d.found = some t → t ≠ "" ∧ t.toList <+: after
  atEnd : d.kind = .unexpectedEndOfInput → after = []
  atCharacter : d.kind.needsCharacter → after ≠ []

/-- The diagnostic points at real text of `input`: its offset lies inside and is a character
boundary, what it shows stands there, and its kind agrees with whether it shows anything. -/
structure PointsInto (d : Diagnostic) (input : String) : Prop where
  one_le_offset : 1 ≤ d.offset
  offset_le : d.offset ≤ input.utf8ByteSize
  found_at_boundary : ∃ before after : String, input = before ++ after ∧
    before.utf8ByteSize = d.offset ∧ ∀ t, d.found = some t → t ≠ "" ∧ t.toList <+: after.toList
  found_eq_none : d.found = none ↔ d.offset = input.utf8ByteSize
  found_of_atEnd : d.kind = .unexpectedEndOfInput → d.found = none
  found_of_needsCharacter : d.kind.needsCharacter → d.found ≠ none

/-- The rendering of the diagnostic quotes a whole line of `input` and puts the caret, which stands
at the offset, under the first character that is shown. If nothing is shown, or a line feed first,
the caret stands one column behind the end of the line. -/
def CaretUnderFound (d : Diagnostic) (input : String) : Prop :=
  ∃ (above row below : Text) (k : Nat),
    input.toList = above ++ (row ++ below) ∧ row.IsLineBetween above below ∧
    d.render input = String.ofList (quotation row k) ++ d.message ∧
    d.offset = Text.byteLength (above ++ row.take k) ∧
    (∀ c, d.firstFound? = some c → c ≠ '\n' → row[k]? = some c) ∧
    (d.found = none ∨ d.firstFound? = some '\n' → k = row.length)

/-- The pointer at a boundary quotes the line around it, with the caret between its two parts. -/
theorem pointer_byteLength (before after : Text) :
    pointer (Text.byteLength before) (before ++ after) =
      quotation (Text.lastLine before ++ Text.firstLine after) (Text.lastLine before).length := by
  rw [pointer, Text.takeBytes_byteLength, List.drop_left, quotation]

/-- What a diagnostic shows first is what comes first after its point. -/
theorem StandsBetween.firstFound?_eq {d : Diagnostic} {before after : Text}
    (h : d.StandsBetween before after) : d.firstFound? = after.head? := by
  cases hfound : d.found with
  | none =>
    rw [firstFound?, hfound, h.found_eq_none.1 hfound]
    rfl
  | some t =>
    obtain ⟨hne, rest, hrest⟩ := h.found_isPrefix t hfound
    obtain ⟨c, v, hv⟩ := List.exists_cons_of_ne_nil (mt String.toList_eq_nil_iff.1 hne)
    rw [firstFound?, hfound, Option.bind_some, ← hrest, hv]
    rfl

/-- A diagnostic between two parts of an input points into it. -/
theorem StandsBetween.pointsInto {d : Diagnostic} {before after : Text}
    (h : d.StandsBetween before after) (hne : before ≠ []) :
    d.PointsInto (String.ofList (before ++ after)) := by
  have hsize : (String.ofList (before ++ after)).utf8ByteSize =
      d.offset + Text.byteLength after := by
    rw [← Text.byteLength_eq_utf8ByteSize, Text.byteLength_append, h.offset_eq]
  have hbefore : Text.byteLength before ≠ 0 := mt Text.byteLength_eq_zero.1 hne
  refine ⟨?_, ?_, ⟨.ofList before, .ofList after, String.ofList_append, ?_, ?_⟩, ?_, ?_, ?_⟩
  · rw [h.offset_eq]
    omega
  · omega
  · rw [h.offset_eq, Text.byteLength_eq_utf8ByteSize]
  · rw [String.toList_ofList]
    exact h.found_isPrefix
  · rw [h.found_eq_none, ← Text.byteLength_eq_zero]
    omega
  · intro hkind
    exact h.found_eq_none.2 (h.atEnd hkind)
  · intro hkind hfound
    exact h.atCharacter hkind (h.found_eq_none.1 hfound)

/-- A diagnostic between two parts of an input is rendered with its caret there. -/
theorem StandsBetween.caretUnderFound {d : Diagnostic} {before after : Text}
    (h : d.StandsBetween before after) : d.CaretUnderFound (String.ofList (before ++ after)) := by
  obtain ⟨above, below, hbefore, hafter, hline⟩ := Text.exists_line_around before after
  refine ⟨above, _, below, (Text.lastLine before).length, ?_, hline, ?_, ?_, ?_, ?_⟩
  · rw [String.toList_ofList, List.append_assoc, ← hafter, ← List.append_assoc, ← hbefore]
  · rw [render, String.toList_ofList, h.offset_eq, pointer_byteLength]
  · rw [List.take_left, ← hbefore, h.offset_eq]
  · intro c hc hne
    rw [h.firstFound?_eq] at hc
    rw [List.getElem?_append_right (Nat.le_refl _), Nat.sub_self, ← List.head?_eq_getElem?,
      Text.firstLine, List.head?_takeWhile, hc]
    simp [hne]
  · intro hend
    -- The line ends at the point, since nothing or a line feed comes after it.
    have hnil : Text.firstLine after = [] := by
      rcases hend with hfound | hfound
      · rw [h.found_eq_none.1 hfound]
        rfl
      · rw [h.firstFound?_eq] at hfound
        obtain ⟨rest, rfl⟩ := List.head?_eq_some_iff.1 hfound
        rfl
    rw [hnil, List.append_nil]

end Diagnostic

/-- The diagnostic for a faithful fault stands at the point of the fault. -/
theorem Cursor.exists_diagnose_standsBetween {c : Cursor} {fault : Fault} (h : fault.Faithful)
    (hrest : fault.rest <:+ c.rest) :
    ∃ before, c.input = before ++ fault.rest ∧ c.consumed <+: before ∧
      (c.diagnose fault).StandsBetween before fault.rest := by
  refine ⟨_, (input_moveTo hrest).symm, List.prefix_append _ _, rfl, ?_, fun t ht => ?_, h.atEnd,
    h.atCharacter⟩
  · rw [← h.found_eq_none]
    exact Option.map_eq_none_iff
  · obtain ⟨w, hw, rfl⟩ := Option.map_eq_some_iff.1 ht
    obtain ⟨hne, hprefix⟩ := h.found_isPrefix w hw
    rw [String.toList_ofList]
    refine ⟨fun hempty => hne ?_, hprefix⟩
    rw [← String.toList_ofList (l := w), hempty]
    rfl

/-- The diagnostic for a fault behind `u` counts the bytes up to the point of the fault. -/
theorem Cursor.diagnose_append (w u : Text) (fault : Fault) :
    (Cursor.mk w (u ++ fault.rest)).diagnose fault =
      ⟨fault.kind, Text.byteLength (w ++ u), fault.found.map String.ofList⟩ := by
  simp [diagnose, moveTo, position]

/-- The offset of a diagnostic counts the bytes before the place of the fault. -/
theorem Cursor.offset_diagnose {w u : Text} {fault : Fault} :
    ((Cursor.mk w (u ++ fault.rest)).diagnose fault).offset = Text.byteLength (w ++ u) := by
  rw [diagnose_append]

/-- An error of classification is a fault after the opening bracket. -/
theorem classify_eq_error {limit : Nat} {input : String} {d : Diagnostic}
    (h : classify limit input = .error d) :
    ∃ s fault rest, input.toList = '[' :: s ∧ Reader.enclosed limit s = .failed fault rest ∧
      d = (Cursor.mk ['['] s).diagnose fault := by
  simp only [classify] at h
  split at h
  next => cases h
  next s _ hs =>
    cases hread : Reader.enclosed limit s with
    | done e rest =>
      simp only [Cursor.run, hread] at h
      cases h
    | failed fault rest =>
      simp only [Cursor.run, hread] at h
      cases h
      exact ⟨s, fault, rest, hs, hread, rfl⟩
  next => cases h

/-- A fault after the opening bracket is an error of classification, unless the value is escaped. -/
theorem classify_of_enclosed_eq_failed {limit : Nat} {input : String} {s rest : Text}
    {fault : Fault} (hinput : input.toList = '[' :: s) (hs : s.head? ≠ some '[')
    (h : Reader.enclosed limit s = .failed fault rest) :
    classify limit input = .error ((Cursor.mk ['['] s).diagnose fault) := by
  rw [classify]
  split
  next u hu =>
    rw [hinput] at hu
    exact absurd (by rw [(List.cons.inj hu).2]; rfl) hs
  next s' _ hs' =>
    obtain rfl := (List.cons.inj (hinput.symm.trans hs')).2
    simp only [Cursor.run, h]
  next _ hne => exact absurd hinput (hne s)

/-- Every diagnostic of classification points at real text, and its rendering puts the caret
there. -/
theorem pointsInto_of_classify_eq_error {limit : Nat} {input : String} {d : Diagnostic}
    (h : classify limit input = .error d) : d.PointsInto input ∧ d.CaretUnderFound input := by
  obtain ⟨s, fault, rest, hinput, hread, rfl⟩ := classify_eq_error h
  have hfaithful : fault.Faithful := Reader.enclosed_faithful limit s fault rest hread
  have hwithin : fault.rest <:+ s := by
    have hkeep := (Reader.enclosed limit).within s
    rw [hread] at hkeep
    exact hkeep.2
  -- The cursor starts behind the bracket, so the point of the fault lies behind it too.
  obtain ⟨before, hsplit, hopen, hstands⟩ :=
    Cursor.exists_diagnose_standsBetween (c := ⟨['['], s⟩) hfaithful hwithin
  have hchars : input.toList = before ++ fault.rest := by rw [hinput, ← hsplit]; rfl
  obtain rfl : input = String.ofList (before ++ fault.rest) := by
    rw [← hchars, String.ofList_toList]
  have hne : before ≠ [] := by
    rintro rfl
    exact absurd (List.prefix_nil.1 hopen) (by simp)
  exact ⟨hstands.pointsInto hne, hstands.caretUnderFound⟩

/-- A wrong argument in the second line, behind a character of two bytes. -/
theorem pointsInto_of_classify_eq_error_second_line :
    classify 1 "[f('é',\n ?)]" = .error ⟨.invalidArgument, 10, some "?"⟩ ∧
      Diagnostic.PointsInto ⟨.invalidArgument, 10, some "?"⟩ "[f('é',\n ?)]" ∧
      Diagnostic.CaretUnderFound ⟨.invalidArgument, 10, some "?"⟩ "[f('é',\n ?)]" := by
  have h : classify 1 "[f('é',\n ?)]" = .error ⟨.invalidArgument, 10, some "?"⟩ := by
    decide +kernel
  exact ⟨h, pointsInto_of_classify_eq_error h⟩

end BracketExpr
