import BracketExpr.Proofs.CursorReading
import BracketExpr.Proofs.Pattern

/-!
# Names are read exactly

Each kind of name has a pattern. A name is read if and only if a search for its pattern at the
cursor finds one, and what is read is what the search finds: the longest word of the pattern that
the text starts with. A point belongs to a function name if a word stands behind it, and it is given
back otherwise; a second point is never tried.
-/

namespace BracketExpr

namespace Pattern

variable {a : Pattern} {scan : Text → Text} {s v w : Text}

/-- The dotted suffix of a function name. -/
def dottedSuffix : Pattern :=
  andThen (one (· == '.')) (atLeastOne isWordChar)

/-- Function names: a letter, word characters, and a dotted suffix or none. -/
def functionName : Pattern :=
  andThen (one Char.isAlpha) (andThen (many isWordChar) (optional dottedSuffix))

/-- Member names. -/
def memberName : Pattern :=
  atLeastOne isMemberChar

/-- The words of the dotted suffix are a dot and at least one word character. -/
theorem mem_language_dottedSuffix :
    w ∈ dottedSuffix.language ↔ ∃ v : Text, v.IsRun isWordChar ∧ w = '.' :: v := by
  simp [dottedSuffix, mem_language_one_andThen, mem_language_atLeastOne]

/-- The words of the pattern for function names are the function names of the grammar. -/
theorem mem_language_functionName : w ∈ functionName.language ↔ IsFunctionName w := by
  rw [functionName, mem_language_one_andThen]
  simp only [mem_language_andThen, mem_language_many, mem_language_optional,
    mem_language_dottedSuffix]
  constructor
  · rintro ⟨c, _, hc, ⟨w, hw, _, ⟨v, hv, rfl⟩ | rfl, rfl⟩, rfl⟩
    · exact .dotted hc hw hv
    · rw [List.append_nil]
      exact .plain hc hw
  · intro h
    cases h with
    | @plain c w hc hw => exact ⟨c, w, hc, ⟨w, hw, [], .inr rfl, List.append_nil w⟩, rfl⟩
    | @dotted c w v hc hw hv => exact ⟨c, _, hc, ⟨w, hw, _, .inl ⟨v, hv, rfl⟩, rfl⟩, rfl⟩

theorem mem_language_memberName : w ∈ memberName.language ↔ IsMemberName w :=
  mem_language_atLeastOne

/-- A search for a function name finds the longest one. Its suffix starts with a point, which the
word in front of it cannot take. -/
theorem prefersLongest_functionName : functionName.PrefersLongest := by
  have hsuffix := ((prefersLongest_atLeastOne isWordChar).one_andThen (· == '.')).optional
  refine (hsuffix.many_andThen fun v hv => ?_).one_andThen Char.isAlpha
  rcases mem_language_optional.1 hv with hdotted | rfl
  · obtain ⟨w, -, rfl⟩ := mem_language_dottedSuffix.1 hdotted
    exact Text.startsOutside_cons.2 (by decide)
  · exact Text.startsOutside_nil _

theorem prefersLongest_memberName : memberName.PrefersLongest :=
  prefersLongest_atLeastOne isMemberChar

/-! ## Scans -/

/-- The scan finds the longest text of the pattern, or the empty one if there is none. -/
structure FoundBy (a : Pattern) (scan : Text → Text) : Prop where
  isLongestPrefix : ∀ s, scan s ≠ [] → (scan s).IsLongestPrefix (· ∈ a.language) s
  not_mem : ∀ s, scan s = [] → ∀ v, v <+: s → v ∉ a.language

/-- The scan of a function name finds what the pattern finds. -/
theorem functionName_foundBy : functionName.FoundBy functionNameAt where
  isLongestPrefix s h := by
    simpa only [mem_language_functionName] using isLongestPrefix_functionNameAt h
  not_mem s h v hv hmem := by
    obtain ⟨c, w, rfl, hc⟩ := (mem_language_functionName.1 hmem).exists_alpha
    obtain ⟨t, rfl⟩ := hv
    have hout := Text.startsOutside_cons.1 (functionNameAt_eq_nil.1 h)
    rw [hc] at hout
    cases hout

theorem memberName_foundBy : memberName.FoundBy memberNameAt where
  isLongestPrefix s h := by
    refine ⟨List.takeWhile_prefix _, mem_language_memberName.2 (isMemberName_memberNameAt h), ?_⟩
    exact fun v hv hmem => Text.length_le_length_takeWhile hv (mem_language_memberName.1 hmem).2
  not_mem s h v hv hmem := by
    obtain ⟨hne, hrun⟩ := mem_language_memberName.1 hmem
    have hle : v.length ≤ (memberNameAt s).length := Text.length_le_length_takeWhile hv hrun
    rw [h] at hle
    exact hne (List.length_eq_zero_iff.1 (Nat.le_zero.1 hle))

/-- Where the longest match is preferred, a scan for it reads what a search finds. -/
theorem FoundBy.lexeme_read (h : a.FoundBy scan) (ha : a.PrefersLongest) (s : Text) :
    Reader.lexeme scan s =
      .done ((a.first? s).map String.ofList) (s.drop ((a.first? s).getD []).length) := by
  by_cases hs : scan s = []
  · rw [first?_eq_none.2 (h.not_mem s hs), Reader.lexeme_read_of_nil hs]
    rfl
  · rw [ha.first?_eq_some.2 (h.isLongestPrefix s hs), Reader.lexeme_read_of_ne_nil hs]
    rfl

end Pattern

/-! ## At a cursor -/

namespace Cursor

/-- What the reading of a name at the cursor `c` comes to, where the pattern `a` is that of the
name. -/
structure NameRead (a : Pattern) (r : Reader (Option String)) (c : Cursor) : Prop where
  /-- What is read is what a search for the pattern finds. -/
  eq_first : (c.run r).1 = .ok ((a.first? c.rest).map String.ofList)
  /-- A name is read if and only if it is the longest one. -/
  some_iff : ∀ w : String, (c.run r).1 = .ok (some w) ↔
    Text.IsLongestPrefix (· ∈ a.language) w.toList c.rest
  /-- The cursor moves by the length of the name that is read. -/
  moves : ∀ w : String, (c.run r).1 = .ok (some w) →
    (c.run r).2.input = c.input ∧ (c.run r).2.position = c.position + Text.byteLength w.toList
  /-- No name is read if and only if there is none. -/
  none_iff : (c.run r).1 = .ok none ↔ ∀ v : Text, v <+: c.rest → v ∉ a.language
  /-- Then the cursor stays. -/
  stays : (c.run r).1 = .ok none → (c.run r).2 = c

/-- A reader whose scan finds the pattern's words reads exactly what the search for the pattern
would match. -/
theorem nameRead_of_foundBy {a : Pattern} {scan : Text → Text} (h : a.FoundBy scan)
    (ha : a.PrefersLongest) (c : Cursor) : NameRead a (Reader.lexeme scan) c := by
  have hrun := run_of_done (h.lexeme_read ha c.rest)
  constructor
  case eq_first => rw [hrun]
  case some_iff =>
    intro w
    rw [hrun, Except.ok.injEq, Option.map_eq_some_iff, ← ha.first?_eq_some]
    constructor
    · rintro ⟨v, hv, rfl⟩
      rwa [String.toList_ofList]
    · intro hw
      exact ⟨w.toList, hw, String.ofList_toList⟩
  case moves =>
    intro w hw
    refine ⟨input_run c _, ?_⟩
    rw [hrun] at hw ⊢
    obtain ⟨v, hv, rfl⟩ := Option.map_eq_some_iff.1 (Except.ok.inj hw)
    have hprefix := (Pattern.prefix_and_mem_of_first? hv).1
    rw [hv, Option.getD_some, moveTo_drop hprefix, String.toList_ofList]
    exact Text.byteLength_append c.consumed v
  case none_iff => rw [hrun, Except.ok.injEq, Option.map_eq_none_iff, Pattern.first?_eq_none]
  case stays =>
    intro hnone
    rw [hrun] at hnone ⊢
    rw [Option.map_eq_none_iff.1 (Except.ok.inj hnone)]
    exact moveTo_rest c

/-- Names are read exactly. At every cursor the reading of a function name, and that of a member
name, takes the longest name that the text ahead starts with, and nothing if it starts with none. -/
theorem run_name_exact (c : Cursor) :
    NameRead .functionName Reader.functionName c ∧ NameRead .memberName Reader.memberName c :=
  ⟨nameRead_of_foundBy Pattern.functionName_foundBy Pattern.prefersLongest_functionName c,
    nameRead_of_foundBy Pattern.memberName_foundBy Pattern.prefersLongest_memberName c⟩

/-- A second point does not belong to a function name, nor does a point behind which a word is
missing. -/
example :
    (Cursor.mk ['é'] "a1.b2.c".toList).run Reader.functionName =
      (.ok (some "a1.b2"), ⟨"éa1.b2".toList, ['.', 'c']⟩) ∧
    (Cursor.mk ['é'] "a1._".toList).run Reader.functionName =
      (.ok (some "a1"), ⟨"éa1".toList, ['.', '_']⟩) := by decide +kernel

end Cursor

end BracketExpr
