import BracketExpr.Proofs.DiagnosticPlace
import Mathlib.Algebra.GroupWithZero.Nat
import Mathlib.Order.Bounds.Basic

/-!
# Renderings are exact

A diagnostic with any offset can be rendered against any input. The offset counts as the last
character boundary up to it, the line that is shown is the piece of the input between line feeds in
which that boundary lies, and the caret stands as many columns into the line as there are characters
from its start to the boundary. So the line and the column give the boundary back.

A rendering can be made from byte offsets alone: from the offsets of line feeds and from slices
between offsets. All of these slices are taken at character boundaries.
-/

namespace BracketExpr

namespace Text

/-! ## Lines -/

/-- The lines of a text: its pieces between line feeds. -/
def lines (s : Text) : List Text :=
  s.splitOn '\n'

/-- A line feed ends a line and starts the next. -/
theorem lines_append_lineFeed (s t : Text) : lines (s ++ '\n' :: t) = s.lines ++ t.lines :=
  List.splitOn_append_cons_self s t

/-- There is one line more than there are line feeds. -/
theorem length_lines (s : Text) : s.lines.length = s.count '\n' + 1 := by
  induction s with
  | nil => rfl
  | cons c s ih =>
    by_cases hc : c = '\n'
    · subst hc
      rw [← List.nil_append ('\n' :: s), lines_append_lineFeed, List.length_append, ih]
      simp [lines, Nat.add_comm]
    · rw [lines, List.splitOn_cons_eq_if_modifyHead, if_neg (by simpa using hc),
        List.length_modifyHead, List.count_cons_of_ne hc]
      exact ih

/-- The lines and the line feeds between them make up the text. -/
theorem sum_byteLength_lines (s : Text) :
    (s.lines.map byteLength).sum + s.count '\n' = byteLength s := by
  induction s with
  | nil => rfl
  | cons c s ih =>
    by_cases hc : c = '\n'
    · subst hc
      have hsize : '\n'.utf8Size = 1 := rfl
      rw [← List.nil_append ('\n' :: s), lines_append_lineFeed, List.map_append, List.sum_append]
      rw [List.nil_append, List.count_cons_self, byteLength_cons, hsize, ← ih]
      simp only [lines, List.splitOn_nil, List.map_cons, List.map_nil, byteLength_nil,
        List.sum_cons, List.sum_nil]
      omega
    · obtain ⟨line, more, hmore⟩ := List.exists_cons_of_ne_nil (List.splitOn_ne_nil '\n' s)
      rw [lines, hmore, List.map_cons, List.sum_cons] at ih
      rw [lines, List.splitOn_cons_eq_if_modifyHead, if_neg (by simpa using hc), hmore,
        List.modifyHead_cons, List.count_cons_of_ne hc, List.map_cons, List.sum_cons,
        byteLength_cons, byteLength_cons, ← ih]
      omega

/-- A line that has nothing above it comes first. -/
theorem exists_lines_eq_cons {row below : Text} (hrow : '\n' ∉ row)
    (hbelow : ∀ c, below.head? = some c → c = '\n') :
    ∃ more, lines (row ++ below) = row :: more := by
  cases below with
  | nil => exact ⟨[], by rw [List.append_nil, lines, List.splitOn_eq_singleton hrow]⟩
  | cons c below =>
    obtain rfl := hbelow c rfl
    exact ⟨lines below, List.splitOn_append_cons_self_of_not_mem hrow below⟩

/-- The line between `above` and `below` comes after as many lines as `above` has line feeds, and
with those line feeds, they make up `above`. -/
theorem IsLineBetween.lines_eq {row above below : Text} (h : row.IsLineBetween above below) :
    ∃ front more, lines (above ++ (row ++ below)) = front ++ row :: more ∧
      front.length = above.count '\n' ∧
      (front.map byteLength).sum + above.count '\n' = byteLength above := by
  obtain ⟨more, hmore⟩ := exists_lines_eq_cons h.noBreak h.below
  rcases List.eq_nil_or_concat above with rfl | ⟨a, c, rfl⟩
  · exact ⟨[], more, hmore, rfl, rfl⟩
  · obtain rfl : c = '\n' := h.above c (by simp)
    refine ⟨lines a, more, ?_, ?_, ?_⟩
    · rw [List.concat_eq_append, List.append_assoc, List.singleton_append,
        lines_append_lineFeed, hmore]
    · rw [List.concat_eq_append, length_lines, List.count_append, List.count_singleton_self]
    · have hsize : '\n'.utf8Size = 1 := rfl
      rw [List.concat_eq_append, List.count_append, List.count_singleton_self, byteLength_append,
        ← Nat.add_assoc,
        sum_byteLength_lines, byteLength_cons, hsize]
      rfl

/-! ## Offsets of line feeds -/

/-- The byte offsets of the line feeds of a text that starts at byte offset `n`. -/
def lineFeedsFrom (n : Nat) : Text → List Nat
  | [] => []
  | c :: s =>
    if c = '\n' then n :: lineFeedsFrom (n + c.utf8Size) s else lineFeedsFrom (n + c.utf8Size) s

theorem lineFeedsFrom_append (n : Nat) (s t : Text) :
    lineFeedsFrom n (s ++ t) = lineFeedsFrom n s ++ lineFeedsFrom (n + byteLength s) t := by
  induction s generalizing n with
  | nil => rfl
  | cons c s ih =>
    rw [List.cons_append, lineFeedsFrom, lineFeedsFrom, ih, byteLength_cons, Nat.add_assoc]
    split <;> rfl

theorem lineFeedsFrom_of_not_mem (n : Nat) {s : Text} (h : '\n' ∉ s) : lineFeedsFrom n s = [] := by
  induction s generalizing n with
  | nil => rfl
  | cons c s ih =>
    rw [List.mem_cons, not_or] at h
    rw [lineFeedsFrom, if_neg (Ne.symm h.1), ih _ h.2]

/-- The byte offset at which the last line of a text starts: one behind its last line feed. -/
def lastLineStart (s : Text) : Nat :=
  (lineFeedsFrom 0 s).getLast?.elim 0 (· + 1)

/-- The byte offset at which the first line of a text ends: at its first line feed, or else at the
end of the text. -/
def firstLineEnd (s : Text) : Nat :=
  (lineFeedsFrom 0 s).head?.getD (byteLength s)

/-- The last line starts behind the last line feed. -/
theorem lastLineStart_append {above row : Text} (hrow : '\n' ∉ row)
    (habove : ∀ c, above.getLast? = some c → c = '\n') :
    lastLineStart (above ++ row) = byteLength above := by
  rw [lastLineStart, lineFeedsFrom_append, lineFeedsFrom_of_not_mem _ hrow, List.append_nil]
  rcases List.eq_nil_or_concat above with rfl | ⟨a, c, rfl⟩
  · rfl
  · obtain rfl : c = '\n' := habove c (by simp)
    rw [List.concat_eq_append, lineFeedsFrom_append, byteLength_append, Nat.zero_add]
    simp only [lineFeedsFrom, if_true, List.getLast?_concat]
    rfl

/-- The first line ends at the first line feed. -/
theorem firstLineEnd_append {row below : Text} (hrow : '\n' ∉ row)
    (hbelow : ∀ c, below.head? = some c → c = '\n') :
    firstLineEnd (row ++ below) = byteLength row := by
  rw [firstLineEnd, lineFeedsFrom_append, lineFeedsFrom_of_not_mem _ hrow, List.nil_append]
  cases below with
  | nil => rw [lineFeedsFrom, List.append_nil]; rfl
  | cons c below =>
    obtain rfl := hbelow c rfl
    rw [lineFeedsFrom, if_pos rfl, Nat.zero_add]
    rfl

/-! ## The last boundary -/

/-- The last character boundary of a text up to byte offset `n`, by going back byte by byte. -/
def boundaryUpTo (s : Text) : Nat → Nat
  | 0 => 0
  | n + 1 => if IsBoundary s (n + 1) then n + 1 else boundaryUpTo s n

/-- As many whole characters are taken as fit into the given number of bytes. -/
theorem isGreatest_takeBytes (s : Text) (n : Nat) :
    IsGreatest {m | m ≤ n ∧ IsBoundary s m} (byteLength (takeBytes n s)) := by
  constructor
  · obtain ⟨after, hs⟩ := takeBytes_isPrefix n s
    have hboundary := isBoundary_byteLength (takeBytes n s) after
    rw [hs] at hboundary
    exact ⟨byteLength_takeBytes_le n s, hboundary⟩
  · rintro m ⟨hle, hm⟩
    exact hm.le_byteLength_takeBytes hle

/-- An offset inside a character is moved back to where the character starts. -/
theorem isGreatest_boundaryUpTo (s : Text) (n : Nat) :
    IsGreatest {m | m ≤ n ∧ IsBoundary s m} (boundaryUpTo s n) := by
  induction n with
  | zero =>
    refine ⟨⟨Nat.le_refl _, isBoundary_iff.2 ⟨[], s, rfl, rfl⟩⟩, ?_⟩
    rintro m ⟨hle, -⟩
    exact hle
  | succ n ih =>
    rw [boundaryUpTo]
    split
    next hboundary =>
      refine ⟨⟨Nat.le_refl _, hboundary⟩, ?_⟩
      rintro m ⟨hle, -⟩
      exact hle
    next hboundary =>
      refine ⟨⟨Nat.le_succ_of_le ih.1.1, ih.1.2⟩, ?_⟩
      rintro m ⟨hle, hm⟩
      -- The offset `n + 1` itself is no boundary, so `m` lies below it.
      have hne : m ≠ n + 1 := fun h => hboundary (h ▸ hm)
      exact ih.2 ⟨by omega, hm⟩

/-- No boundary lies behind the end of a text. -/
theorem boundaryUpTo_min (s : Text) (n : Nat) :
    boundaryUpTo s (min n (byteLength s)) = byteLength (takeBytes n s) := by
  have hsets : {m | m ≤ min n (byteLength s) ∧ IsBoundary s m} = {m | m ≤ n ∧ IsBoundary s m} := by
    ext m
    constructor
    · rintro ⟨hle, hm⟩
      exact ⟨Nat.le_trans hle (Nat.min_le_left _ _), hm⟩
    · rintro ⟨hle, hm⟩
      exact ⟨Nat.le_min.2 ⟨hle, hm.le_byteLength⟩, hm⟩
  have hgreatest := isGreatest_boundaryUpTo s (min n (byteLength s))
  rw [hsets] at hgreatest
  exact hgreatest.unique (isGreatest_takeBytes s n)

end Text

/-! ## Renderings -/

namespace Diagnostic

/-- The pointer at byte offset `n` of the text `s`, from byte offsets alone: the offset goes back to
a boundary, line feeds are looked for on both sides of it, and the line and the part of it before
the boundary are slices of the text. There is no pointer if a slice is not between boundaries. -/
def pointerBySlices? (n : Nat) (s : Text) : Option Text := do
  let offset := s.boundaryUpTo (min n (Text.byteLength s))
  let before ← s.slice? 0 offset
  let after ← s.slice? offset (Text.byteLength s)
  let line ← s.slice? (Text.lastLineStart before) (offset + Text.firstLineEnd after)
  let indent ← s.slice? (Text.lastLineStart before) offset
  return line ++ '\n' :: (List.replicate indent.length ' ' ++ ['^', '\n'])

/-- No slice is taken off a boundary, and the slices make up the pointer. -/
theorem pointerBySlices?_eq (n : Nat) (s : Text) : pointerBySlices? n s = some (pointer n s) := by
  obtain ⟨after, hs⟩ := Text.takeBytes_isPrefix n s
  generalize hcut : Text.takeBytes n s = before at hs
  obtain ⟨above, below, hbefore, hafter, hline⟩ := Text.exists_line_around before after
  have hstart : before.lastLineStart = Text.byteLength above := by
    conv => lhs; rw [hbefore]
    exact Text.lastLineStart_append (Text.lineFeed_not_mem_lastLine before) hline.above
  have hend : Text.firstLineEnd after = Text.byteLength (Text.firstLine after) := by
    conv => lhs; rw [hafter]
    exact Text.firstLineEnd_append (Text.lineFeed_not_mem_firstLine after) hline.below
  have hoffset : s.boundaryUpTo (min n (Text.byteLength s)) = Text.byteLength before := by
    rw [Text.boundaryUpTo_min, hcut]
  have hsliceBefore : s.slice? 0 (Text.byteLength before) = some before :=
    Text.slice?_append [] after hs.symm rfl rfl
  have hsliceAfter : s.slice? (Text.byteLength before) (Text.byteLength s) = some after :=
    Text.slice?_append before [] (by rw [List.append_nil, hs]) rfl (by rw [hs])
  have hsliceLine : s.slice? (Text.byteLength above)
      (Text.byteLength before + Text.byteLength (Text.firstLine after)) =
      some (Text.lastLine before ++ Text.firstLine after) := by
    refine Text.slice?_append above below ?_ rfl ?_
    · rw [List.append_assoc, ← hafter, ← List.append_assoc, ← hbefore, hs]
    · rw [← List.append_assoc, ← hbefore, Text.byteLength_append]
  have hsliceIndent : s.slice? (Text.byteLength above) (Text.byteLength before) =
      some (Text.lastLine before) := by
    refine Text.slice?_append above after ?_ rfl ?_
    · rw [← List.append_assoc, ← hbefore, hs]
    · rw [← hbefore]
  have hdrop : s.drop before.length = after := by rw [← hs, List.drop_left]
  simp only [pointerBySlices?, hoffset, hsliceBefore, hsliceAfter, hstart, hend, hsliceLine,
    hsliceIndent, pointer, hcut, hdrop, Option.bind_eq_bind, Option.bind_some, Option.pure_def]

/-- The rendering of a diagnostic about an input, said in lines. The diagnostic counts as standing
behind `before`, in the line `line`, in front of its column `k`, counted from zero. -/
structure Shows (d : Diagnostic) (input : String) (before line : Text) (k : Nat) : Prop where
  isPrefix : before <+: input.toList
  /-- The place is the last character boundary that is neither behind the offset nor behind the end
  of the input. -/
  isGreatest : IsGreatest {n | n ≤ min d.offset input.utf8ByteSize ∧
    Text.IsBoundary input.toList n} (Text.byteLength before)
  /-- There are as many lines above the line as there are line feeds before the place. -/
  line_eq : (Text.lines input.toList)[before.count '\n']? = some line
  column_le : k ≤ line.length
  /-- The lines above, their line feeds and the part of the line before the column reach up to the
  place. -/
  place_eq : (((Text.lines input.toList).take (before.count '\n')).map Text.byteLength).sum +
    before.count '\n' + Text.byteLength (line.take k) = Text.byteLength before
  render_eq : d.render input =
    String.ofList (line ++ '\n' :: (List.replicate k ' ' ++ ['^', '\n'])) ++ d.message

/-- Every diagnostic can be rendered against every input, whatever its offset. -/
theorem exists_shows (d : Diagnostic) (input : String) :
    ∃ before line k, d.Shows input before line k := by
  obtain ⟨after, hinput⟩ := Text.takeBytes_isPrefix d.offset input.toList
  generalize hcut : Text.takeBytes d.offset input.toList = before at hinput
  obtain ⟨above, below, hbefore, hafter, hline⟩ := Text.exists_line_around before after
  obtain ⟨front, more, hlines, hlength, hsum⟩ := hline.lines_eq
  have hparts : input.toList =
      above ++ (Text.lastLine before ++ Text.firstLine after ++ below) := by
    rw [List.append_assoc, ← hafter, ← List.append_assoc, ← hbefore, hinput]
  -- The place lies in the line, so all line feeds before it are above the line.
  have hcount : before.count '\n' = above.count '\n' := by
    conv => lhs; rw [hbefore]
    rw [List.count_append, List.count_eq_zero.2 (Text.lineFeed_not_mem_lastLine before)]
    rfl
  refine ⟨before, Text.lastLine before ++ Text.firstLine after, (Text.lastLine before).length,
    ⟨after, hinput⟩, ?_, ?_, ?_, ?_, ?_⟩
  · rw [← hcut, ← Text.byteLength_toList, ← Text.boundaryUpTo_min]
    exact Text.isGreatest_boundaryUpTo _ _
  · rw [hparts, hlines, hcount, ← hlength, List.getElem?_append_right (Nat.le_refl _), Nat.sub_self,
      List.getElem?_cons_zero]
  · rw [List.length_append]
    exact Nat.le_add_right _ _
  · rw [hparts, hlines, hcount, ← hlength, List.take_left, hlength, hsum, List.take_left,
      ← Text.byteLength_append, ← hbefore]
  · have hdrop : input.toList.drop before.length = after := by rw [← hinput, List.drop_left]
    rw [render, pointer, hcut, hdrop]

/-- Renderings are total and exact. Every diagnostic, whatever its offset and whatever it shows, is
rendered against every input as the line in which its place lies, the caret below the column that
gives this place back, and the message. And no slice of the input that is taken for this lies off
the character boundaries. -/
theorem render_exact (d : Diagnostic) (input : String) :
    (∃ before line k, d.Shows input before line k) ∧
      (pointerBySlices? d.offset input.toList).map (fun p => String.ofList p ++ d.message) =
        some (d.render input) := by
  refine ⟨exists_shows d input, ?_⟩
  rw [pointerBySlices?_eq, Option.map_some, render]

/-- An offset inside of a character of two bytes, in the second of three lines. -/
example : (Diagnostic.mk .invalidArgument 4 none).render "a\nbé\nc" =
    "bé\n ^\ninvalid argument at offset 4" := by
  decide +kernel

end Diagnostic

end BracketExpr
