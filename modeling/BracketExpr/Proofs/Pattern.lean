import BracketExpr.Proofs.LexemeEnd
import Mathlib.Computability.Language

/-!
# Patterns

A pattern is made of classes of characters by repetition, sequence and option. It has a language,
and it can be searched for at the start of a text. The search goes through the matches in an order
of preference and ends with the first one: a repetition takes as many characters as it can and gives
them back one by one, and an optional part is left out last.

For every pattern the matches are the words of its language that the text starts with, so a search
fails if and only if there is none. That the first match is the longest one is not true of every
pattern. It is true if nothing that may come behind a repetition starts with a character that the
repetition could have taken, since then the search never has to take anything back.
-/

namespace BracketExpr

open scoped Computability

/-- Patterns for the start of a text. -/
inductive Pattern where
  /-- One character of the class. -/
  | one (p : Char → Bool)
  /-- Any number of characters of the class, as many as possible. -/
  | many (p : Char → Bool)
  /-- One pattern behind the other. -/
  | andThen (a b : Pattern)
  /-- The pattern, or else nothing. -/
  | optional (a : Pattern)

namespace Pattern

variable {a b : Pattern} {p : Char → Bool} {s u v w : Text}

/-- One or more characters of the class, as many as possible. -/
def atLeastOne (p : Char → Bool) : Pattern :=
  andThen (one p) (many p)

/-! ## Languages -/

/-- The words of a pattern. -/
def language : Pattern → Language Char
  | one p => {w | ∃ c, p c ∧ w = [c]}
  | many p => {w | ∃ c, p c ∧ w = [c]}∗
  | andThen a b => a.language * b.language
  | optional a => a.language + 1

theorem mem_language_one : w ∈ (one p).language ↔ ∃ c, p c ∧ w = [c] :=
  Iff.rfl

/-- The words of a repetition consist of characters of its class. -/
theorem mem_language_many : w ∈ (many p).language ↔ ∀ c ∈ w, p c := by
  constructor
  · rintro ⟨words, rfl, hwords⟩ d hd
    obtain ⟨u, hu, hdu⟩ := List.mem_flatten.1 hd
    obtain ⟨c, hc, rfl⟩ := hwords u hu
    rwa [List.mem_singleton.1 hdu]
  · intro hw
    have hflatten : (w.map fun c => [c]).flatten = w :=
      List.flatMap_def.symm.trans w.flatMap_singleton'
    refine ⟨w.map fun c => [c], hflatten.symm, fun u hu => ?_⟩
    obtain ⟨c, hc, rfl⟩ := List.mem_map.1 hu
    exact ⟨c, hw c hc, rfl⟩

/-- The words of a sequence are a word of the first followed by a word of the second. -/
theorem mem_language_andThen :
    w ∈ (andThen a b).language ↔ ∃ u ∈ a.language, ∃ v ∈ b.language, u ++ v = w :=
  Language.mem_mul

theorem mem_language_optional : w ∈ (optional a).language ↔ w ∈ a.language ∨ w = [] :=
  Iff.rfl

theorem mem_language_one_andThen :
    w ∈ (andThen (one p) b).language ↔ ∃ c v, p c ∧ v ∈ b.language ∧ w = c :: v := by
  rw [mem_language_andThen]
  constructor
  · rintro ⟨_, ⟨c, hc, rfl⟩, v, hv, rfl⟩
    exact ⟨c, v, hc, hv, rfl⟩
  · rintro ⟨c, v, hc, hv, rfl⟩
    exact ⟨[c], ⟨c, hc, rfl⟩, v, hv, rfl⟩

/-- The words of a repetition are the non-empty runs of its class. -/
theorem mem_language_atLeastOne : w ∈ (atLeastOne p).language ↔ w.IsRun p := by
  simp only [atLeastOne, mem_language_one_andThen, mem_language_many]
  constructor
  · rintro ⟨c, v, hc, hv, rfl⟩
    exact ⟨List.cons_ne_nil c v, List.forall_mem_cons.2 ⟨hc, hv⟩⟩
  · rintro ⟨hne, hw⟩
    obtain ⟨c, v, rfl⟩ := List.exists_cons_of_ne_nil hne
    obtain ⟨hc, hv⟩ := List.forall_mem_cons.1 hw
    exact ⟨c, v, hc, hv, rfl⟩

/-! ## Matches -/

/-- The runs of a class at the start of a text, the empty one among them. To go on is preferred to
stopping. -/
def runsAt (p : Char → Bool) : Text → List Text
  | [] => [[]]
  | c :: s => if p c then (runsAt p s).map (c :: ·) ++ [[]] else [[]]

/-- The matches of a pattern at the start of a text, in the order in which they are preferred. -/
def matchesAt : Pattern → Text → List Text
  | one _, [] => []
  | one p, c :: _ => if p c then [[c]] else []
  | many p, s => runsAt p s
  | andThen a b, s =>
    (a.matchesAt s).flatMap fun u => (b.matchesAt (s.drop u.length)).map fun v => u ++ v
  | optional a, s => a.matchesAt s ++ [[]]

/-- The runs that stand at a text are the prefixes made of characters of the class. -/
theorem mem_runsAt : w ∈ runsAt p s ↔ w <+: s ∧ ∀ c ∈ w, p c := by
  induction s generalizing w with
  | nil =>
    rw [runsAt, List.mem_singleton, List.prefix_nil]
    constructor
    · rintro rfl
      exact ⟨rfl, nofun⟩
    · exact And.left
  | cons c s ih =>
    by_cases hc : p c
    · rw [runsAt, if_pos hc, List.mem_append, List.mem_map, List.mem_singleton]
      constructor
      · rintro (⟨v, hv, rfl⟩ | rfl)
        · obtain ⟨hs, hrun⟩ := ih.1 hv
          exact ⟨(List.prefix_cons_inj c).2 hs, List.forall_mem_cons.2 ⟨hc, hrun⟩⟩
        · exact ⟨List.nil_prefix, nofun⟩
      · rintro ⟨hs, hrun⟩
        rcases List.prefix_cons_iff.1 hs with rfl | ⟨v, rfl, hv⟩
        · exact .inr rfl
        · exact .inl ⟨v, ih.2 ⟨hv, (List.forall_mem_cons.1 hrun).2⟩, rfl⟩
    · rw [runsAt, if_neg hc, List.mem_singleton]
      constructor
      · rintro rfl
        exact ⟨List.nil_prefix, nofun⟩
      · rintro ⟨hs, hrun⟩
        rcases List.prefix_cons_iff.1 hs with rfl | ⟨v, rfl, -⟩
        · rfl
        · exact absurd (hrun c List.mem_cons_self) hc

theorem mem_matchesAt_one : w ∈ (one p).matchesAt s ↔ w <+: s ∧ w ∈ (one p).language := by
  rw [mem_language_one]
  constructor
  · intro h
    cases s with
    | nil => cases h
    | cons c s =>
      by_cases hc : p c
      · rw [matchesAt, if_pos hc, List.mem_singleton] at h
        exact ⟨h ▸ List.prefix_append [c] s, c, hc, h⟩
      · rw [matchesAt, if_neg hc] at h
        cases h
  · rintro ⟨⟨t, rfl⟩, c, hc, rfl⟩
    rw [List.singleton_append, matchesAt, if_pos hc]
    exact List.mem_singleton_self [c]

/-- The matches are the words of the language that the text starts with. -/
theorem mem_matchesAt : w ∈ a.matchesAt s ↔ w <+: s ∧ w ∈ a.language := by
  induction a generalizing s w with
  | one p => exact mem_matchesAt_one
  | many p => rw [matchesAt, mem_runsAt, mem_language_many]
  | andThen a b iha ihb =>
    simp only [matchesAt, List.mem_flatMap, List.mem_map, iha, ihb, mem_language_andThen]
    constructor
    · rintro ⟨u, ⟨⟨t, rfl⟩, hu⟩, v, ⟨hvt, hv⟩, rfl⟩
      rw [List.drop_left] at hvt
      exact ⟨(List.prefix_append_right_inj u).2 hvt, u, hu, v, hv, rfl⟩
    · rintro ⟨⟨t, rfl⟩, u, hu, v, hv, rfl⟩
      rw [List.append_assoc]
      refine ⟨u, ⟨List.prefix_append u _, hu⟩, v, ⟨?_, hv⟩, rfl⟩
      rw [List.drop_left]
      exact List.prefix_append v t
  | optional a ih =>
    rw [matchesAt, List.mem_append, List.mem_singleton, ih, mem_language_optional]
    constructor
    · rintro (⟨hw, ha⟩ | rfl)
      · exact ⟨hw, .inl ha⟩
      · exact ⟨List.nil_prefix, .inr rfl⟩
    · rintro ⟨hw, ha | rfl⟩
      · exact .inl ⟨hw, ha⟩
      · exact .inr rfl

/-! ## The first match -/

/-- What a search for the pattern at the start of a text finds. -/
def first? (a : Pattern) (s : Text) : Option Text :=
  (a.matchesAt s).head?

/-- A search fails if and only if the text starts with no word of the pattern. -/
theorem first?_eq_none : a.first? s = none ↔ ∀ v, v <+: s → v ∉ a.language := by
  rw [first?, List.head?_eq_none_iff, List.eq_nil_iff_forall_not_mem]
  simp only [mem_matchesAt, not_and]

/-- A search finds a word of the pattern. -/
theorem prefix_and_mem_of_first? (h : a.first? s = some w) : w <+: s ∧ w ∈ a.language :=
  mem_matchesAt.1 (List.mem_of_head? h)

/-- Where a word of the pattern stands, the search finds one. -/
theorem exists_first? (hv : v <+: s) (ha : v ∈ a.language) : ∃ w, a.first? s = some w := by
  cases h : a.first? s with
  | none => exact absurd ha (first?_eq_none.1 h v hv)
  | some w => exact ⟨w, rfl⟩

/-- A repetition goes first as far as its class does. -/
theorem first?_many (p : Char → Bool) (s : Text) : (many p).first? s = some (s.takeWhile p) := by
  rw [first?, matchesAt]
  induction s with
  | nil => rfl
  | cons c s ih =>
    by_cases hc : p c
    · simp [runsAt, hc, ih]
    · simp [runsAt, hc]

/-- The first match of a sequence starts with that of its first part if the second part matches
behind it. -/
theorem first?_andThen (ha : a.first? s = some u) (hb : b.first? (s.drop u.length) = some v) :
    (andThen a b).first? s = some (u ++ v) := by
  obtain ⟨us, hus⟩ := List.head?_eq_some_iff.1 ha
  obtain ⟨vs, hvs⟩ := List.head?_eq_some_iff.1 hb
  rw [first?, matchesAt, hus, List.flatMap_cons, hvs]
  rfl

/-! ## Patterns that prefer the longest match -/

/-- No match of the pattern is longer than the first one. -/
def PrefersLongest (a : Pattern) : Prop :=
  ∀ s w v : Text, a.first? s = some w → v <+: s → v ∈ a.language → v.length ≤ w.length

/-- An optional part that is taken can spoil a longer match. -/
example : first? (andThen (optional (one (· == 'a')))
    (optional (andThen (one (· == 'a')) (one (· == 'b'))))) ['a', 'b'] = some ['a'] := by decide

/-- The search for such a pattern finds the longest of its words that the text starts with. -/
theorem PrefersLongest.first?_eq_some (h : a.PrefersLongest) :
    a.first? s = some w ↔ w.IsLongestPrefix (· ∈ a.language) s := by
  have hfound {w : Text} (hw : a.first? s = some w) : w.IsLongestPrefix (· ∈ a.language) s :=
    ⟨(prefix_and_mem_of_first? hw).1, (prefix_and_mem_of_first? hw).2, fun v => h s w v hw⟩
  constructor
  · exact hfound
  · intro hw
    obtain ⟨u, hu⟩ := exists_first? hw.isPrefix hw.holds
    rw [hu, hw.eq (hfound hu)]

/-- A greedy repetition finds its longest match first. -/
theorem prefersLongest_many (p : Char → Bool) : (many p).PrefersLongest := by
  intro s w v hw hv hmem
  obtain rfl : s.takeWhile p = w := Option.some.inj ((first?_many p s).symm.trans hw)
  exact Text.length_le_length_takeWhile hv (mem_language_many.1 hmem)

/-- An optional pattern prefers the longest match if the pattern does: it tries the empty one
last. -/
theorem PrefersLongest.optional (h : a.PrefersLongest) : (optional a).PrefersLongest := by
  intro s w v hw hv hmem
  rcases mem_language_optional.1 hmem with ha | rfl
  · -- The pattern matches, so its first match is tried before the empty one.
    obtain ⟨u, hu⟩ := exists_first? hv ha
    obtain ⟨us, hus⟩ := List.head?_eq_some_iff.1 hu
    rw [first?, matchesAt, hus] at hw
    obtain rfl : u = w := Option.some.inj hw
    exact h s u v hu hv ha
  · exact Nat.zero_le _

/-- A sequence prefers its longest match if the first match of its first part goes as far as any
other one before a match of the second part, and leaves that match to the second part. -/
theorem PrefersLongest.andThen (hb : b.PrefersLongest)
    (h : ∀ s u v : Text, u ∈ a.language → v ∈ b.language → u ++ v <+: s →
      ∃ u' : Text, a.first? s = some u' ∧ u.length ≤ u'.length ∧ v <+: s.drop u'.length) :
    (andThen a b).PrefersLongest := by
  intro s w x hw hx hmem
  obtain ⟨u, hu, v, hv, rfl⟩ := mem_language_andThen.1 hmem
  obtain ⟨u', hfirst, hlength, hleft⟩ := h s u v hu hv hx
  obtain ⟨v', hfirst'⟩ := exists_first? hleft hv
  rw [first?_andThen hfirst hfirst'] at hw
  obtain rfl := Option.some.inj hw
  rw [List.length_append, List.length_append]
  exact Nat.add_le_add hlength (hb _ v' v hfirst' hleft hv)

/-- A single character leaves the same text to what comes behind it in every match. -/
theorem PrefersLongest.one_andThen (hb : b.PrefersLongest) (p : Char → Bool) :
    (Pattern.andThen (one p) b).PrefersLongest := by
  refine hb.andThen fun s u v hu hv hs => ?_
  obtain ⟨t, rfl⟩ := hs
  obtain ⟨c, hc, rfl⟩ := mem_language_one.1 hu
  refine ⟨[c], ?_, Nat.le_refl _, List.prefix_append v t⟩
  rw [first?, List.append_assoc, List.singleton_append, matchesAt, if_pos hc]
  rfl

/-- A repetition goes as far as its class does, and so it leaves what comes behind it, if that does
not start with a character of the class. -/
theorem PrefersLongest.many_andThen (hb : b.PrefersLongest)
    (h : ∀ v ∈ b.language, Text.StartsOutside p v) :
    (Pattern.andThen (many p) b).PrefersLongest := by
  refine hb.andThen fun s u v hu hv hs => ?_
  have hrun := mem_language_many.1 hu
  refine ⟨s.takeWhile p, first?_many p s, ?_, ?_⟩
  · exact Text.length_le_length_takeWhile ((List.prefix_append u v).trans hs) hrun
  · cases v with
    | nil => exact List.nil_prefix
    | cons c v =>
      obtain ⟨t, rfl⟩ := hs
      have hend := (h _ hv).append (List.cons_ne_nil c v) t
      rw [List.append_assoc, Text.takeWhile_append_of_outside hrun hend, List.drop_left]
      exact List.prefix_append (c :: v) t

theorem prefersLongest_atLeastOne (p : Char → Bool) : (atLeastOne p).PrefersLongest :=
  (prefersLongest_many p).one_andThen p

end Pattern

end BracketExpr
