import BracketExpr.Proofs.Outline
import BracketExpr.Proofs.Recognition
import BracketExpr.Tree.Nesting
import Mathlib.Algebra.BigOperators.Group.List.Basic
import Mathlib.Data.Int.Order.Basic
import Mathlib.Order.Bounds.Defs

/-!
# Balanced brackets

Outside quotes the brackets of an accepted expression are balanced, and the bracket at its start is
closed at its end and not before. The level of a place in a text is the number of brackets that are
open there. The depth of an expression can be seen in its text: it is the greatest level at which a
parenthesis opens.
-/

namespace BracketExpr

/-! ## Words of brackets -/

/-- Words of brackets that are properly nested, each bracket matched by one of its kind. -/
inductive Balanced : List Char → Prop where
  | nil : Balanced []
  | round {w : List Char} (h : Balanced w) : Balanced ('(' :: (w ++ [')']))
  | square {w : List Char} (h : Balanced w) : Balanced ('[' :: (w ++ [']']))
  | append {v w : List Char} (hv : Balanced v) (hw : Balanced w) : Balanced (v ++ w)

/-- The number of brackets in a word that open, less the number of those that close. -/
def level (w : List Char) : Int :=
  (w.count '(' + w.count '[' : Nat) - (w.count ')' + w.count ']' : Nat)

theorem level_nil : level [] = 0 := rfl

theorem level_append (v w : List Char) : level (v ++ w) = level v + level w := by
  simp only [level, List.count_append]
  omega

theorem level_cons (c : Char) (w : List Char) : level (c :: w) = level [c] + level w :=
  level_append [c] w

namespace Balanced

variable {w : List Char}

/-- As many brackets are closed as are opened. -/
theorem level_eq_zero (h : Balanced w) : level w = 0 := by
  induction h with
  | nil => rfl
  | round h ih | square h ih =>
    rw [level_cons, level_append, ih]
    rfl
  | append hv hw ihv ihw => rw [level_append, ihv, ihw, Int.add_zero]

/-- What stands in a pair of brackets is never below the level of the pair. -/
private theorem level_nonneg_of_isPrefix_bracketed {u : List Char} {o c : Char}
    (ho : level [o] = 1) (hc : level [c] = -1) (hw : level w = 0) (ih : ∀ u, u <+: w → 0 ≤ level u)
    (hu : u <+: o :: (w ++ [c])) : 0 ≤ level u := by
  rcases List.prefix_cons_iff.1 hu with rfl | ⟨v, rfl, hv⟩
  · exact Int.le_refl 0
  · rw [level_cons, ho]
    rcases List.prefix_concat_iff.1 hv with rfl | hv
    · rw [level_append, hw, hc]
      decide
    · have hlevel := ih v hv
      omega

/-- At no place in a balanced word are more brackets closed than were opened. -/
theorem level_nonneg_of_isPrefix (h : Balanced w) {u : List Char} (hu : u <+: w) :
    0 ≤ level u := by
  induction h generalizing u with
  | nil => rw [List.prefix_nil.1 hu, level_nil]
  | round h ih => exact level_nonneg_of_isPrefix_bracketed rfl rfl h.level_eq_zero (fun u => ih) hu
  | square h ih => exact level_nonneg_of_isPrefix_bracketed rfl rfl h.level_eq_zero (fun u => ih) hu
  | @append v w hv hw ihv ihw =>
    rcases List.prefix_or_prefix_of_prefix hu (List.prefix_append v w) with hu' | ⟨u, rfl⟩
    · exact ihv hu'
    · rw [level_append, hv.level_eq_zero, Int.zero_add]
      exact ihw ((List.prefix_append_right_inj v).1 hu)

end Balanced

/-! ## The brackets of a text -/

/-- The characters of brackets. -/
def isBracket (c : Char) : Bool :=
  ['(', ')', '[', ']'].contains c

/-- The character of a bracket. -/
def Mark.char : Mark → Char
  | .call _ => '('
  | .callEnd => ')'
  | .index => '['
  | .indexEnd => ']'

namespace Text

/-- The brackets that stand outside quotes in a text behind the text `before`. -/
def bracketsFrom (before s : Text) : List Char :=
  ((unquotedFrom before s).map Prod.snd).filter isBracket

/-- The brackets of a text that stand outside quotes. -/
def brackets (s : Text) : List Char :=
  bracketsFrom [] s

/-- The bracket at the start of a text is matched by the one behind `v`: this one is a closing
bracket of the same kind outside quotes, and what stands between the two is balanced. -/
def ClosesBehind (s v : Text) : Prop :=
  (∃ t, s = '[' :: (v ++ ']' :: t)) ∧ Even (v.count '\x27') ∧ Balanced v.brackets

/-- The brackets of a text in two parts, the second of which has the first before it. -/
theorem bracketsFrom_append (before s t : Text) :
    bracketsFrom before (s ++ t) = bracketsFrom before s ++ bracketsFrom (before ++ s) t := by
  rw [bracketsFrom, unquotedFrom_append, List.map_append, List.filter_append]
  rfl

/-- The characters outside quotes, with the text before each. -/
theorem mem_unquotedFrom {before s u : Text} {c : Char} :
    (u, c) ∈ unquotedFrom before s ↔
      ∃ v w, s = v ++ c :: w ∧ u = before ++ v ∧ Even (u.count '\x27') := by
  induction s generalizing before with
  | nil => simp [unquotedFrom]
  | cons d s ih =>
    have hhead : (∃ v w, d :: s = v ++ c :: w ∧ u = before ++ v ∧ Even (u.count '\x27')) ↔
        (u = before ∧ c = d ∧ Even (u.count '\x27')) ∨
          ∃ v w, s = v ++ c :: w ∧ u = before ++ [d] ++ v ∧ Even (u.count '\x27') := by
      constructor
      · rintro ⟨_ | ⟨_, v⟩, w, hs, rfl, heven⟩
        · cases hs
          exact .inl ⟨List.append_nil _, rfl, heven⟩
        · cases hs
          exact .inr ⟨v, w, rfl, by simp, heven⟩
      · rintro (⟨rfl, rfl, heven⟩ | ⟨v, w, rfl, rfl, heven⟩)
        · exact ⟨[], s, rfl, (List.append_nil _).symm, heven⟩
        · exact ⟨d :: v, w, rfl, by simp, heven⟩
    rw [hhead, ← ih, unquotedFrom]
    split
    next h =>
      rw [List.mem_cons, Prod.mk.injEq]
      constructor
      · rintro (⟨rfl, rfl⟩ | hmem)
        · exact .inl ⟨rfl, rfl, h⟩
        · exact .inr hmem
      · rintro (⟨rfl, rfl, _⟩ | hmem)
        · exact .inl ⟨rfl, rfl⟩
        · exact .inr hmem
    next h =>
      constructor
      · exact .inr
      · rintro (⟨rfl, _, heven⟩ | hmem)
        · exact absurd heven h
        · exact hmem

/-- A character is unquoted if the number of quotes before it is even. -/
theorem mem_unquoted {s u : Text} {c : Char} :
    (u, c) ∈ unquoted s ↔ (∃ v, s = u ++ c :: v) ∧ Even (u.count '\x27') := by
  rw [unquoted, mem_unquotedFrom]
  constructor
  · rintro ⟨u, v, rfl, rfl, heven⟩
    exact ⟨⟨v, rfl⟩, heven⟩
  · rintro ⟨⟨v, rfl⟩, heven⟩
    exact ⟨u, v, rfl, rfl, heven⟩

end Text

/-- The marks of an outline are the brackets of the text. -/
theorem Mark.map_char_at? (before : Text) (c : Char) :
    (at? before c).map char = if isBracket c then some c else none := by
  by_cases hc : isBracket c
  · rw [if_pos hc]
    rw [isBracket, List.contains_iff_mem] at hc
    simp only [List.mem_cons, List.not_mem_nil, or_false] at hc
    rcases hc with rfl | rfl | rfl | rfl <;> rfl
  · rw [if_neg hc]
    unfold at?
    split
    all_goals first | rfl | exact absurd rfl hc

/-- The brackets of a text are those of its outline. -/
theorem Text.bracketsFrom_eq (before s : Text) :
    bracketsFrom before s = (outlineFrom before s).map Mark.char := by
  rw [bracketsFrom, outlineFrom, List.map_filterMap]
  induction unquotedFrom before s with
  | nil => rfl
  | cons p l ih =>
    obtain ⟨u, c⟩ := p
    rw [List.map_cons, List.filter_cons, List.filterMap_cons, Mark.map_char_at?, ih]
    by_cases hc : isBracket c
    · simp [hc]
    · simp [hc]

/-! ## The outline of a tree is balanced -/

mutual

/-- The brackets of an expression are balanced. -/
theorem Expr.balanced_outline : ∀ e : Expr, Balanced (e.outline.map Mark.char)
  | ⟨call, accessor⟩ => by
    rw [Expr.outline, List.map_append]
    exact call.balanced_outline.append (Step.balanced_outlines accessor)

/-- The parentheses of a call stand around the outlines of its arguments. -/
theorem Call.balanced_outline : ∀ c : Call, Balanced (c.outline.map Mark.char)
  | ⟨name, args⟩ => by
    rw [Call.outline, List.map_cons, List.map_append]
    exact (Argument.balanced_outlines args).round

/-- Balanced outlines in a row are balanced. -/
theorem Argument.balanced_outlines : ∀ args : List Argument,
    Balanced ((Argument.outlines args).map Mark.char)
  | [] => .nil
  | a :: args => by
    rw [Argument.outlines, List.map_append]
    exact a.balanced_outline.append (Argument.balanced_outlines args)

theorem Argument.balanced_outline : ∀ a : Argument, Balanced (a.outline.map Mark.char)
  | .expr e => e.balanced_outline
  | .str _ | .num _ | .bool _ => .nil

theorem Step.balanced_outlines : ∀ steps : List Step,
    Balanced ((Step.outlines steps).map Mark.char)
  | [] => .nil
  | s :: steps => by
    rw [Step.outlines, List.map_append]
    exact s.balanced_outline.append (Step.balanced_outlines steps)

theorem Step.balanced_outline : ∀ s : Step, Balanced (s.outline.map Mark.char)
  | .member _ => .nil
  | .index i => by
    rw [Step.outline, List.map_cons, List.map_append]
    exact i.balanced_outline.square

theorem Index.balanced_outline : ∀ i : Index, Balanced (i.outline.map Mark.char)
  | .expr e => e.balanced_outline
  | .num _ | .property _ => .nil

end

/-! ## The levels of calls -/

/-- The levels at which the calls of an outline open, if `k` brackets are open in front of it. -/
def callLevels (k : Int) : List Mark → List Int
  | [] => []
  | .call _ :: o => k :: callLevels (k + 1) o
  | .callEnd :: o => callLevels (k - 1) o
  | .index :: o => callLevels (k + 1) o
  | .indexEnd :: o => callLevels (k - 1) o

/-- The calls of the second part are as much deeper as the first part leaves brackets open. -/
theorem callLevels_append (k : Int) (o o' : List Mark) :
    callLevels k (o ++ o') =
      callLevels k o ++ callLevels (k + level (o.map Mark.char)) o' := by
  induction o generalizing k with
  | nil => simp [callLevels, level_nil]
  | cons m o ih =>
    rw [List.map_cons, level_cons, ← Int.add_assoc]
    cases m <;> simp only [List.cons_append, callLevels, ih] <;> rfl

/-- Behind a balanced outline the level is as before. -/
theorem callLevels_append_of_balanced {o : List Mark} (h : Balanced (o.map Mark.char)) (k : Int)
    (o' : List Mark) : callLevels k (o ++ o') = callLevels k o ++ callLevels k o' := by
  rw [callLevels_append, h.level_eq_zero, Int.add_zero]

/-- The levels `l` lie below `base + d`, and the last one below it is among them unless `d` is
zero. -/
structure Reaches (l : List Int) (base : Int) (d : Nat) : Prop where
  lt : ∀ k ∈ l, k < base + d
  mem : 0 < d → base + d - 1 ∈ l

namespace Reaches

variable {l l' : List Int} {k : Int} {d d' : Nat}

/-- Where there is no call, no level is reached. -/
theorem nil : Reaches [] k 0 where
  lt := by simp
  mem h := absurd h (Nat.lt_irrefl 0)

/-- Of two parts, the deeper one decides. -/
theorem append (h : Reaches l k d) (h' : Reaches l' k d') : Reaches (l ++ l') k (max d d') where
  lt i hi := by
    rcases List.mem_append.1 hi with hi | hi
    · have hlt := h.lt i hi
      omega
    · have hlt := h'.lt i hi
      omega
  mem hd := by
    rcases Nat.le_total d d' with hle | hle
    · rw [Nat.max_eq_right hle] at hd ⊢
      exact List.mem_append_right l (h'.mem hd)
    · rw [Nat.max_eq_left hle] at hd ⊢
      exact List.mem_append_left l' (h.mem hd)

/-- A call and all that is nested in it, one level higher. -/
theorem call (h : Reaches l (k + 1) d) : Reaches (k :: l) k (d + 1) where
  lt i hi := by
    rcases List.mem_cons.1 hi with rfl | hi
    · omega
    · have hlt := h.lt i hi
      omega
  mem _ := by
    rcases Nat.eq_zero_or_pos d with rfl | hd
    · rw [List.mem_cons]
      left
      omega
    · have hmem := h.mem hd
      rw [List.mem_cons]
      right
      convert hmem using 1
      omega

end Reaches

mutual

/-- The calls of an expression that stands at level `k` open at the levels from `k` on, one for each
level of its depth. -/
theorem Expr.reaches : ∀ (e : Expr) (k : Int), Reaches (callLevels k e.outline) k e.depth
  | ⟨⟨name, args⟩, accessor⟩, k => by
    have hargs := Argument.reaches_all args (k + 1)
    have hsteps := Step.reaches_all accessor k
    rw [Expr.outline, callLevels_append_of_balanced (Call.balanced_outline _), Call.outline,
      callLevels, callLevels_append_of_balanced (Argument.balanced_outlines args)]
    simpa [callLevels, Expr.depth, Call.depth] using (hargs.append hsteps).call

/-- Arguments stand at the level of the call around them. -/
theorem Argument.reaches_all : ∀ (args : List Argument) (k : Int),
    Reaches (callLevels k (Argument.outlines args)) k (Argument.maxDepth args)
  | [], _ => .nil
  | a :: args, k => by
    rw [Argument.outlines, callLevels_append_of_balanced a.balanced_outline]
    exact (a.reaches k).append (Argument.reaches_all args k)

theorem Argument.reaches : ∀ (a : Argument) (k : Int), Reaches (callLevels k a.outline) k a.depth
  | .expr e, k => e.reaches k
  | .str _, _ | .num _, _ | .bool _, _ => .nil

/-- The bracket around an index raises the level like the parenthesis of a call. -/
theorem Step.reaches_all : ∀ (steps : List Step) (k : Int),
    Reaches (callLevels k (Step.outlines steps)) (k + 1) (Step.maxDepth steps)
  | [], _ => .nil
  | s :: steps, k => by
    rw [Step.outlines, callLevels_append_of_balanced s.balanced_outline]
    exact (s.reaches k).append (Step.reaches_all steps k)

/-- Inside the brackets of an index calls are one level deeper. -/
theorem Step.reaches : ∀ (s : Step) (k : Int),
    Reaches (callLevels k s.outline) (k + 1) s.depth
  | .member _, _ => .nil
  | .index i, k => by
    rw [Step.outline, callLevels, callLevels_append_of_balanced i.balanced_outline]
    simpa [callLevels, Step.depth] using i.reaches (k + 1)

theorem Index.reaches : ∀ (i : Index) (k : Int), Reaches (callLevels k i.outline) k i.depth
  | .expr e, k => e.reaches k
  | .num _, _ | .property _, _ => .nil

end

/-! ## Places in a text -/

namespace Text

/-- The level behind two parts, the second of which is scanned with the first before it. -/
theorem level_brackets_append (s t : Text) :
    level (brackets (s ++ t)) = level (brackets s) + level ((outlineFrom s t).map Mark.char) := by
  rw [brackets, bracketsFrom_append, level_append, List.nil_append, bracketsFrom_eq s t]
  rfl

/-- Only an opening parenthesis outside quotes starts a call. -/
theorem callLevels_outlineFrom_singleton (f : Text → Int) (before : Text) (c : Char) :
    callLevels (f before) (outlineFrom before [c]) =
      ((unquotedFrom before [c]).filter fun p => p.2 == '(').map fun p => f p.1 := by
  rw [outlineFrom, unquotedFrom]
  split
  · by_cases hc : c = '('
    · rw [hc]
      rfl
    · have hnone : callLevels (f before) (Mark.at? before c).toList = [] := by
        unfold Mark.at?
        split
        · contradiction
        all_goals rfl
      have hfilter : ([(before, c)].filter fun p => p.2 == '(') = [] := by simpa using hc
      rw [unquotedFrom, hfilter]
      cases hm : Mark.at? before c <;> simpa [hm] using hnone
  · rfl

/-- The calls of the outline of a text open at the levels of its parentheses. -/
theorem callLevels_outlineFrom (before s : Text) :
    callLevels (level before.brackets) (outlineFrom before s) =
      ((unquotedFrom before s).filter fun p => p.2 == '(').map fun p => level (brackets p.1) := by
  induction s generalizing before with
  | nil => rfl
  | cons c s ih =>
    -- Both sides are split behind the first character, where `ih` has `before ++ [c]` in front.
    rw [← List.singleton_append, outlineFrom_append, callLevels_append, ← level_brackets_append, ih,
      unquotedFrom_append, List.filter_append, List.map_append,
      callLevels_outlineFrom_singleton fun u => level (brackets u)]

/-- Behind its matching bracket, what follows the first bracket is not balanced any more. -/
theorem not_balanced_brackets {u : Text} (heven : Even (u.count '\x27')) (hu : Balanced u.brackets)
    (t : Text) : ¬ Balanced (brackets (u ++ ']' :: t)) := by
  intro h
  have hsplit : brackets (u ++ ']' :: t) =
      (brackets u ++ [']']) ++ bracketsFrom (u ++ [']']) t := by
    rw [← List.singleton_append, brackets, bracketsFrom_append, bracketsFrom_append,
      ← List.append_assoc]
    simp only [List.nil_append, bracketsFrom, unquotedFrom, if_pos heven]
    rfl
  rw [hsplit] at h
  -- Up to that bracket one more is closed than was opened.
  have hlevel := h.level_nonneg_of_isPrefix (List.prefix_append _ _)
  rw [level_append, hu.level_eq_zero] at hlevel
  exact absurd hlevel (by decide)

/-- The first bracket of a text is matched at one place only. -/
theorem ClosesBehind.unique {s u v : Text} (hu : s.ClosesBehind u) (hv : s.ClosesBehind v) :
    u = v := by
  obtain ⟨⟨t, rfl⟩, hueven, hu⟩ := hu
  obtain ⟨⟨t', ht⟩, hveven, hv⟩ := hv
  rcases List.append_eq_append_iff.1 (List.cons.inj ht).2 with ⟨w, rfl, hw⟩ | ⟨w, rfl, hw⟩
  · cases w with
    | nil => rw [List.append_nil]
    | cons c w =>
      obtain rfl := (List.cons.inj hw).1
      exact absurd hv (not_balanced_brackets hueven hu w)
  · cases w with
    | nil => rw [List.append_nil]
    | cons c w =>
      obtain rfl := (List.cons.inj hw).1
      exact absurd hu (not_balanced_brackets hveven hv w)

end Text

/-- An expression has at least the level of its own call. -/
theorem Expr.depth_pos : ∀ e : Expr, 0 < e.depth
  | ⟨_, _⟩ => Nat.succ_pos _

namespace Grammar

variable {s : Text} {e : Expr}

/-- The brackets of an expression up to the last one are balanced. -/
theorem Enclosed.exists_closesBehind (h : Enclosed s e) :
    ∃ u, s = '[' :: (u ++ [']']) ∧ s.ClosesBehind u := by
  obtain ⟨w₁, t, w₂, rfl, hw₁, ht, hw₂⟩ := h
  have hinside := (ht.hasOutline.append (.of_isPlain hw₂.isPlain)).blank_append hw₁
  refine ⟨w₁ ++ (t ++ w₂), by simp, ⟨[], by simp⟩, hinside.even, ?_⟩
  rw [Text.brackets, Text.bracketsFrom_eq, hinside.outlineFrom_eq [] (by simp)
    (Text.endsOutside_nil _), List.append_nil]
  exact e.balanced_outline

theorem Enclosed.balanced_brackets (h : Enclosed s e) : Balanced s.brackets := by
  rw [Text.brackets, Text.bracketsFrom_eq, h.outlineFrom_eq, List.map_cons, List.map_append]
  exact e.balanced_outline.square

/-- The levels of the parentheses outside quotes, as the tree has them. -/
theorem Enclosed.map_level_eq (h : Enclosed s e) :
    ((s.unquoted.filter fun p => p.2 == '(').map fun p => level (Text.brackets p.1)) =
      callLevels 1 e.outline := by
  have hlevels : callLevels 0 (Text.outlineFrom [] s) =
      (s.unquoted.filter fun p => p.2 == '(').map fun p => level (Text.brackets p.1) :=
    Text.callLevels_outlineFrom [] s
  rw [← hlevels, h.outlineFrom_eq, callLevels, callLevels_append_of_balanced e.balanced_outline,
    Int.zero_add]
  exact List.append_nil _

/-- The depth of an accepted expression is the greatest number of brackets that are open in front of
one of its opening parentheses. -/
theorem Enclosed.isGreatest_depth (h : Enclosed s e) :
    IsGreatest {k : Int | ∃ u v, s = u ++ '(' :: v ∧ Even (u.count '\x27') ∧
      k = level (Text.brackets u)} e.depth := by
  have hset (k : Int) : (∃ u v, s = u ++ '(' :: v ∧ Even (u.count '\x27') ∧
      k = level (Text.brackets u)) ↔ k ∈ callLevels 1 e.outline := by
    rw [← h.map_level_eq, List.mem_map]
    constructor
    · rintro ⟨u, v, hs, heven, rfl⟩
      exact ⟨(u, '('), List.mem_filter.2 ⟨Text.mem_unquoted.2 ⟨⟨v, hs⟩, heven⟩, rfl⟩, rfl⟩
    · rintro ⟨⟨u, c⟩, hmem, rfl⟩
      obtain ⟨hmem, hc⟩ := List.mem_filter.1 hmem
      obtain rfl := beq_iff_eq.1 hc
      obtain ⟨⟨v, hs⟩, heven⟩ := Text.mem_unquoted.1 hmem
      exact ⟨u, v, hs, heven, rfl⟩
  have hreaches := e.reaches 1
  constructor
  · apply (hset _).2
    have hmem := hreaches.mem e.depth_pos
    rwa [add_sub_cancel_left] at hmem
  · intro k hk
    have hlt := hreaches.lt k ((hset k).1 hk)
    omega

end Grammar

/-- An accepted expression has balanced brackets outside quotes, the first of them is matched by the
last character of the text and by no other, and its depth is the greatest number of brackets that
are open in front of a parenthesis. -/
theorem balanced_and_isGreatest_depth {limit : Nat} {input : String} {e : Expr}
    (h : classify limit input = .ok (.expression e)) :
    Balanced (Text.brackets input.toList) ∧
      (∃ u, input.toList = '[' :: (u ++ [']']) ∧
        ∀ v, Text.ClosesBehind input.toList v ↔ v = u) ∧
      IsGreatest {k : Int | ∃ u v, input.toList = u ++ '(' :: v ∧ Even (u.count '\x27') ∧
        k = level (Text.brackets u)} e.depth := by
  have henclosed := (enclosed_of_classify h).1
  obtain ⟨u, hu, hcloses⟩ := henclosed.exists_closesBehind
  refine ⟨henclosed.balanced_brackets, ⟨u, hu, fun v => ⟨fun hv => hv.unique hcloses, ?_⟩⟩,
    henclosed.isGreatest_depth⟩
  rintro rfl
  exact hcloses

/-- Brackets inside quotes, and the deepest call in the index of an argument. -/
theorem balanced_and_isGreatest_depth_index :
    classify 3 "[f(g(')[')[h(1)].x, ']')]" = .ok (.expression
        ⟨⟨"f", [.expr ⟨⟨"g", [.str ")["]⟩, [.index (.expr ⟨⟨"h", [.num 1]⟩, []⟩), .member "x"]⟩,
          .str "]"]⟩, []⟩) ∧
      Balanced (Text.brackets "[f(g(')[')[h(1)].x, ']')]".toList) ∧
      ∃ u v, "[f(g(')[')[h(1)].x, ']')]".toList = u ++ '(' :: v ∧ Even (u.count '\x27') ∧
        3 = level (Text.brackets u) := by
  have h : classify 3 "[f(g(')[')[h(1)].x, ']')]" = .ok (.expression
      ⟨⟨"f", [.expr ⟨⟨"g", [.str ")["]⟩, [.index (.expr ⟨⟨"h", [.num 1]⟩, []⟩), .member "x"]⟩,
        .str "]"]⟩, []⟩) := by decide +kernel
  obtain ⟨hbalanced, _, hdepth⟩ := balanced_and_isGreatest_depth h
  exact ⟨h, hbalanced, hdepth.1⟩

end BracketExpr
