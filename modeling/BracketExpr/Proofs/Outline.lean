import BracketExpr.Proofs.Completeness
import Mathlib.Algebra.Ring.Parity

/-!
# Outlines

The outline of a text consists of the brackets in it that stand outside quotes, in the order in
which they are written, where an opening parenthesis counts together with the name in front of it.
It is found by looking at characters only: a character stands outside quotes if an even number of
quotes comes before it, and a name is a run of characters.

The outline of a tree consists of the brackets that its text must have. Main statement: the outline
of an expression of the grammar is that of its tree, wherever the text stands, as long as neither an
open quote nor a further character of a name comes before it. What the brackets of a text say about
its tree can thus be proved of trees alone.
-/

namespace BracketExpr

/-! ## Outside quotes -/

namespace Text

/-- The characters of a text that stand outside quotes, behind an even number of them, each with all
the text before it. What stands before the text itself is `before`. -/
def unquotedFrom (before : Text) : Text → List (Text × Char)
  | [] => []
  | c :: s =>
    if Even (before.count '\x27') then (before, c) :: unquotedFrom (before ++ [c]) s
    else unquotedFrom (before ++ [c]) s

/-- The characters of a text that stand outside quotes, each with the text before it. -/
def unquoted (s : Text) : List (Text × Char) :=
  unquotedFrom [] s

/-- The longest run of name characters that ends a text once the blanks at its end are dropped. -/
def lastName (s : Text) : Text :=
  ((skipBlanks s.reverse).takeWhile isNameChar).reverse

/-- The text does not end with a character of the class `p`. The empty text never does. -/
def EndsOutside (p : Char → Bool) (s : Text) : Prop :=
  StartsOutside p s.reverse

/-- The unquoted characters of two texts in a row are those of the first and then, seen behind it,
those of the second. -/
theorem unquotedFrom_append (before s t : Text) :
    unquotedFrom before (s ++ t) = unquotedFrom before s ++ unquotedFrom (before ++ s) t := by
  induction s generalizing before with
  | nil => rw [List.nil_append, List.append_nil, unquotedFrom, List.nil_append]
  | cons c s ih =>
    rw [List.cons_append, unquotedFrom, unquotedFrom, ih, List.append_assoc, List.singleton_append]
    split
    · rfl
    · rfl

theorem endsOutside_nil (p : Char → Bool) : EndsOutside p [] := rfl

theorem EndsOutside.concat {p : Char → Bool} {c : Char} (h : p c = false) (s : Text) :
    EndsOutside p (s ++ [c]) := by
  rw [EndsOutside, List.reverse_append]
  exact h

/-- A name is found again behind its end and blanks, if nothing before it could belong to it. -/
theorem lastName_append {before name w : Text} (hbefore : before.EndsOutside isNameChar)
    (hne : name ≠ []) (hname : ∀ c ∈ name, isNameChar c) (hw : w.IsBlank) :
    lastName (before ++ (name ++ w)) = name := by
  have hw' : IsBlank w.reverse := fun c hc => hw c (List.mem_reverse.1 hc)
  have hname' : ∀ c ∈ name.reverse, isNameChar c := fun c hc => hname c (List.mem_reverse.1 hc)
  have hstop : StartsOutside isBlank (name.reverse ++ before.reverse) := by
    obtain ⟨c, v, hv⟩ := List.exists_cons_of_ne_nil (mt List.reverse_eq_nil_iff.1 hne)
    rw [hv, List.cons_append, startsOutside_cons]
    refine Bool.eq_false_iff.2 fun hc => ?_
    have hcname := hname' c (by rw [hv]; exact List.mem_cons_self)
    rw [isNameChar_eq_false_of_isBlank hc] at hcname
    cases hcname
  rw [lastName, List.reverse_append, List.reverse_append, List.append_assoc, skipBlanks_append hw',
    skipBlanks_of_outside hstop, takeWhile_append_of_outside hname' hbefore, List.reverse_reverse]

end Text

/-! ## Outlines of texts -/

/-- A bracket of an expression: around the arguments of a call or around an index. -/
inductive Mark where
  /-- The parenthesis that opens the arguments of a call, with the name of the function. -/
  | call (name : String)
  | callEnd
  | index
  | indexEnd
  deriving DecidableEq

/-- The bracket that a character is behind the text `before`, if it is one. -/
def Mark.at? (before : Text) : Char → Option Mark
  | '(' => some (.call (String.ofList before.lastName))
  | ')' => some .callEnd
  | '[' => some .index
  | ']' => some .indexEnd
  | _ => none

/-- Characters that are neither brackets nor quotes. -/
def isPlain (c : Char) : Bool :=
  !(['(', ')', '[', ']', '\x27'].contains c)

/-- A class that has no bracket and no quote has plain characters only. -/
theorem isPlain_of_class {p : Char → Bool} (hp : ['(', ')', '[', ']', '\x27'].any p = false)
    {c : Char} (hc : p c) : isPlain c := by
  rw [isPlain, Bool.not_eq_true', List.contains_eq_mem, decide_eq_false_iff_not]
  intro hmem
  exact List.any_eq_false.1 hp c hmem hc

/-- Only brackets leave a mark. -/
theorem Mark.at?_of_isPlain {c : Char} (h : isPlain c) (before : Text) : at? before c = none := by
  have hne (d : Char) (hd : isPlain d = false) : c ≠ d := by
    rintro rfl
    rw [hd] at h
    cases h
  exact at?.eq_5 before c (hne _ rfl) (hne _ rfl) (hne _ rfl) (hne _ rfl)

theorem Mark.at?_quote (before : Text) : at? before '\x27' = none := rfl

namespace Text

/-- The outline of a text behind the text `before`. -/
def outlineFrom (before s : Text) : List Mark :=
  (unquotedFrom before s).filterMap fun p => Mark.at? p.1 p.2

/-- A text of characters that are neither brackets nor quotes. -/
def IsPlain (s : Text) : Prop :=
  ∀ c ∈ s, isPlain c

theorem outlineFrom_nil (before : Text) : outlineFrom before [] = [] := rfl

/-- The marks of two texts in a row are those of the first and then, seen behind it, those of the
second. -/
theorem outlineFrom_append (before s t : Text) :
    outlineFrom before (s ++ t) = outlineFrom before s ++ outlineFrom (before ++ s) t := by
  rw [outlineFrom, unquotedFrom_append, List.filterMap_append]
  rfl

/-- Outside quotes, a character leaves its own mark before those of the text behind it. -/
theorem outlineFrom_cons_of_even {before : Text} (h : Even (before.count '\x27')) (c : Char)
    (s : Text) : outlineFrom before (c :: s) =
      (Mark.at? before c).toList ++ outlineFrom (before ++ [c]) s := by
  rw [outlineFrom, unquotedFrom, if_pos h, List.filterMap_cons]
  cases Mark.at? before c <;> rfl

/-- A character that is no bracket adds nothing, outside quotes or inside. -/
theorem outlineFrom_cons_of_none {before : Text} {c : Char} (h : Mark.at? before c = none)
    (s : Text) : outlineFrom before (c :: s) = outlineFrom (before ++ [c]) s := by
  rw [outlineFrom, unquotedFrom]
  split
  · rw [List.filterMap_cons, h]
    rfl
  · rfl

/-- Inside quotes no character counts. -/
theorem outlineFrom_cons_of_odd {before : Text} (h : ¬ Even (before.count '\x27')) (c : Char)
    (s : Text) : outlineFrom before (c :: s) = outlineFrom (before ++ [c]) s := by
  rw [outlineFrom, unquotedFrom, if_neg h]
  rfl

/-- A text without brackets and quotes leaves no mark. -/
theorem outlineFrom_of_isPlain {s : Text} (h : s.IsPlain) (before : Text) :
    outlineFrom before s = [] := by
  induction s generalizing before with
  | nil => rfl
  | cons c s ih =>
    obtain ⟨hc, hs⟩ := List.forall_mem_cons.1 h
    rw [outlineFrom_cons_of_none (Mark.at?_of_isPlain hc before), ih hs]

theorem IsPlain.count_quote {s : Text} (h : s.IsPlain) : s.count '\x27' = 0 := by
  rw [List.count_eq_zero]
  intro hmem
  exact absurd (h _ hmem) (by decide)

theorem IsBlank.isPlain {w : Text} (h : w.IsBlank) : w.IsPlain :=
  fun c hc => isPlain_of_class (by decide) (h c hc)

end Text

/-! ### Lexemes -/

theorem IsFunctionName.isNameChar {w : Text} (h : IsFunctionName w) : ∀ c ∈ w, isNameChar c := by
  intro c hc
  cases h with
  | plain hd hw =>
    rcases List.mem_cons.1 hc with rfl | hc
    · exact isNameChar_of_isWordChar (isWordChar_of_isAlpha hd)
    · exact isNameChar_of_isWordChar (hw c hc)
  | dotted hd hw hv =>
    rcases List.mem_cons.1 hc with rfl | hc
    · exact isNameChar_of_isWordChar (isWordChar_of_isAlpha hd)
    · rcases List.mem_append.1 hc with hc | hc
      · exact isNameChar_of_isWordChar (hw c hc)
      · rcases List.mem_cons.1 hc with rfl | hc
        · decide
        · exact isNameChar_of_isWordChar (hv.2 c hc)

theorem IsFunctionName.isPlain {w : Text} (h : IsFunctionName w) : w.IsPlain :=
  fun c hc => isPlain_of_class (by decide) (h.isNameChar c hc)

theorem IsMemberName.isPlain {w : Text} (h : IsMemberName w) : w.IsPlain :=
  fun c hc => isPlain_of_class (by decide) (h.2 c hc)

theorem IsNumeral.isPlain {w : Text} {n : Int64} (h : IsNumeral w n) : w.IsPlain := by
  have hdigits {v : Text} (hv : v.IsRun Char.isDigit) : v.IsPlain :=
    fun c hc => isPlain_of_class (by decide) (hv.2 c hc)
  cases h with
  | natural hw => exact hdigits hw
  | negative hw => exact List.forall_mem_cons.2 ⟨by decide, hdigits hw⟩

theorem isPlain_booleanText (b : Bool) : (booleanText b).IsPlain := by
  cases b <;> exact List.all_eq_true.1 rfl

/-- Nothing between quotes counts, and the quotes come in pairs. -/
theorem IsQuotedBody.outlineFrom {b v : Text} (h : IsQuotedBody b v) (before : Text)
    (hodd : ¬ Even (before.count '\x27')) :
    Text.outlineFrom before b = [] ∧ Even (b.count '\x27') := by
  induction h generalizing before with
  | nil => exact ⟨rfl, by simp⟩
  | @char c w v hc h ih =>
    rw [Text.outlineFrom_cons_of_odd hodd, List.count_cons_of_ne hc]
    apply ih
    rwa [List.count_append, List.count_singleton, if_neg (by simpa using hc), Nat.add_zero]
  | @quote w v h ih =>
    rw [Text.outlineFrom_cons_of_none (Mark.at?_quote before),
      Text.outlineFrom_cons_of_none (Mark.at?_quote _), List.count_cons_self, List.count_cons_self]
    obtain ⟨houtline, heven⟩ := ih (before ++ ['\x27'] ++ ['\x27']) (by
      simpa [Nat.even_add_one] using hodd)
    exact ⟨houtline, by simpa [Nat.even_add_one] using heven⟩

/-- Between quotes nothing leaves a mark, and the quotes are closed at the end. -/
theorem IsQuoted.outlineFrom {w v : Text} (h : IsQuoted w v) (before : Text)
    (heven : Even (before.count '\x27')) :
    Text.outlineFrom before w = [] ∧ Even (w.count '\x27') := by
  obtain ⟨b, rfl, hb⟩ := h
  have hodd : ¬ Even ((before ++ ['\x27']).count '\x27') := by
    simpa [Nat.even_add_one] using heven
  obtain ⟨houtline, hcount⟩ := hb.outlineFrom _ hodd
  rw [Text.outlineFrom_cons_of_none (Mark.at?_quote before), Text.outlineFrom_append, houtline,
    Text.outlineFrom_cons_of_none (Mark.at?_quote _), Text.outlineFrom_nil]
  refine ⟨rfl, ?_⟩
  simpa [Nat.even_add_one] using hcount

/-! ## Outlines of trees -/

mutual

/-- The brackets in the text of an expression. -/
def Expr.outline : Expr → List Mark
  | ⟨call, accessor⟩ => call.outline ++ Step.outlines accessor

/-- The brackets in the text of a call. -/
def Call.outline : Call → List Mark
  | ⟨name, args⟩ => .call name :: (Argument.outlines args ++ [.callEnd])

/-- The brackets in the text of an argument list. -/
def Argument.outlines : List Argument → List Mark
  | [] => []
  | a :: args => a.outline ++ Argument.outlines args

/-- The brackets in the text of an argument. -/
def Argument.outline : Argument → List Mark
  | .expr e => e.outline
  | .str _ | .num _ | .bool _ => []

/-- The brackets in the text of some steps. -/
def Step.outlines : List Step → List Mark
  | [] => []
  | s :: steps => s.outline ++ Step.outlines steps

/-- The brackets in the text of a step. -/
def Step.outline : Step → List Mark
  | .member _ => []
  | .index i => .index :: (i.outline ++ [.indexEnd])

/-- The brackets in the text of an index, without its own. -/
def Index.outline : Index → List Mark
  | .expr e => e.outline
  | .num _ | .property _ => []

end

/-! ## Texts with a certain outline -/

namespace Text

/-- Behind every text that ends outside quotes and not with a character of the class `p`, the text
`t` has the outline `o`, and it leaves no quote open. -/
structure HasOutline (p : Char → Bool) (t : Text) (o : List Mark) : Prop where
  even : Even (t.count '\x27')
  outlineFrom_eq : ∀ before : Text, Even (before.count '\x27') → before.EndsOutside p →
    outlineFrom before t = o

/-- The class without characters: a text may stand behind any other that ends outside quotes. -/
def noChar (_ : Char) : Bool :=
  false

theorem endsOutside_noChar (s : Text) : EndsOutside noChar s := by
  rw [EndsOutside, StartsOutside]
  cases s.reverse.head? <;> rfl

namespace HasOutline

variable {p : Char → Bool} {s t : Text} {o o' : List Mark}

/-- An outline that holds behind every text holds behind those that end outside a class. -/
theorem anywhere (h : HasOutline noChar t o) : HasOutline p t o where
  even := h.even
  outlineFrom_eq before heven _ := h.outlineFrom_eq before heven (endsOutside_noChar before)

theorem of_isPlain (h : t.IsPlain) : HasOutline p t [] where
  even := by rw [h.count_quote]; exact Even.zero
  outlineFrom_eq before _ _ := outlineFrom_of_isPlain h before

/-- A quoted text has the empty outline, whatever brackets it quotes. -/
theorem of_isQuoted {v : Text} (h : IsQuoted t v) : HasOutline p t [] where
  even := (h.outlineFrom [] (by simp)).2
  outlineFrom_eq before heven _ := (h.outlineFrom before heven).1

/-- Outlines of two texts in a row are joined, if the second does not depend on what is before
it. -/
theorem append (hs : HasOutline p s o) (ht : HasOutline noChar t o') :
    HasOutline p (s ++ t) (o ++ o') where
  even := by
    rw [List.count_append]
    exact hs.even.add ht.even
  outlineFrom_eq before heven hend := by
    rw [outlineFrom_append, hs.outlineFrom_eq before heven hend, ht.outlineFrom_eq]
    · rw [List.count_append]
      exact heven.add hs.even
    · exact endsOutside_noChar _

theorem nil : HasOutline p [] [] :=
  of_isPlain (by simp [IsPlain])

theorem plain_append (hs : s.IsPlain) (ht : HasOutline noChar t o) : HasOutline p (s ++ t) o :=
  append (of_isPlain hs) ht

/-- Blanks keep a name apart from what stands before them. -/
theorem blank_append {w : Text} (hw : w.IsBlank) (h : HasOutline isNameChar t o) :
    HasOutline isNameChar (w ++ t) o where
  even := by
    rw [List.count_append, hw.isPlain.count_quote, Nat.zero_add]
    exact h.even
  outlineFrom_eq before heven hend := by
    rw [outlineFrom_append, outlineFrom_of_isPlain hw.isPlain, List.nil_append]
    apply h.outlineFrom_eq
    · rw [List.count_append, hw.isPlain.count_quote, Nat.add_zero]
      exact heven
    · rw [EndsOutside, List.reverse_append]
      have hw' : IsBlank w.reverse := fun c hc => hw c (List.mem_reverse.1 hc)
      exact .blank_append hw' (fun c => isNameChar_eq_false_of_isBlank) hend

/-- A bracket or a separator in front of a text. -/
theorem cons {c : Char} {m : Option Mark} (hquote : c ≠ '\x27') (hname : isNameChar c = false)
    (hm : ∀ before, Mark.at? before c = m) (h : HasOutline isNameChar t o) :
    HasOutline noChar (c :: t) (m.toList ++ o) where
  even := by
    rw [List.count_cons_of_ne hquote]
    exact h.even
  outlineFrom_eq before heven _ := by
    rw [outlineFrom_cons_of_even heven, hm, h.outlineFrom_eq]
    · rw [List.count_append, List.count_singleton, if_neg (by simpa using hquote), Nat.add_zero]
      exact heven
    · exact .concat hname before

/-- A name and the parenthesis behind it. -/
theorem call {name : String} {w : Text} (hname : IsFunctionName name.toList) (hw : w.IsBlank)
    (h : HasOutline isNameChar t o) :
    HasOutline isNameChar (name.toList ++ (w ++ '(' :: t)) (.call name :: o) where
  even := by
    rw [List.count_append, List.count_append, hname.isPlain.count_quote, hw.isPlain.count_quote,
      Nat.zero_add, Nat.zero_add, List.count_cons_of_ne (by decide)]
    exact h.even
  outlineFrom_eq before heven hend := by
    have heven' : Even ((before ++ (name.toList ++ w)).count '\x27') := by
      rw [List.count_append, List.count_append, hname.isPlain.count_quote,
        hw.isPlain.count_quote]
      exact heven
    have hlast : Text.lastName (before ++ (name.toList ++ w)) = name.toList :=
      lastName_append hend hname.ne_nil hname.isNameChar hw
    rw [outlineFrom_append, outlineFrom_append, outlineFrom_of_isPlain hname.isPlain,
      outlineFrom_of_isPlain hw.isPlain, List.append_assoc before, outlineFrom_cons_of_even heven',
      h.outlineFrom_eq]
    · rw [Mark.at?, hlast, String.ofList_toList]
      rfl
    · rw [List.count_append, List.count_singleton]
      exact heven'
    · exact .concat (by decide) _

/-- Brackets around a text and blanks. -/
theorem bracketed {w₁ w₂ : Text} (hw₁ : w₁.IsBlank) (h : HasOutline isNameChar t o)
    (hw₂ : w₂.IsBlank) :
    HasOutline noChar ('[' :: (w₁ ++ (t ++ (w₂ ++ [']'])))) (.index :: (o ++ [.indexEnd])) := by
  have hclose : HasOutline noChar [']'] [.indexEnd] :=
    .cons (m := some .indexEnd) (by decide) (by decide) (fun _ => rfl) .nil
  have hinside := (h.append (.plain_append hw₂.isPlain hclose)).blank_append hw₁
  exact .cons (m := some .index) (by decide) (by decide) (fun _ => rfl) hinside

end HasOutline

end Text

/-! ## The outline of a text of the grammar -/

namespace Grammar

open Text (HasOutline noChar)

mutual

/-- The outline of an expression is that of its tree. -/
theorem Expression.hasOutline : ∀ {e : Expr} {t : Text}, Expression t e →
    t.HasOutline isNameChar e.outline
  | ⟨⟨name, args⟩, steps⟩, _, .mk hname hw₁ hw₂ hargs hw₃ hsteps => by
    have hclose := HasOutline.cons (c := ')') (m := some .callEnd) (by decide) (by decide)
      (fun _ => rfl) hsteps.hasOutline.anywhere
    have hlist := hargs.hasOutline.append (.plain_append hw₃.isPlain hclose)
    have hcall := HasOutline.call hname hw₁ (hlist.blank_append hw₂)
    simpa [Expr.outline, Call.outline] using hcall

/-- A list of arguments has the outlines of its arguments, in order. -/
theorem Arguments.hasOutline : ∀ {args : List Argument} {t : Text}, Arguments t args →
    t.HasOutline isNameChar (Argument.outlines args)
  | [], _, .nil => .nil
  | _ :: _, _, .cons ha hargs => ha.hasOutline.append hargs.hasOutline

theorem FurtherArguments.hasOutline : ∀ {args : List Argument} {t : Text},
    FurtherArguments t args → t.HasOutline noChar (Argument.outlines args)
  | [], _, .nil => .nil
  | _ :: _, _, .cons hw₁ hw₂ ha hargs => by
    have hlist := (ha.hasOutline.append hargs.hasOutline).blank_append hw₂
    have hcomma := HasOutline.cons (c := ',') (m := none) (by decide) (by decide)
      (fun _ => rfl) hlist
    exact .plain_append hw₁.isPlain hcomma

/-- An argument has its own outline: that of the nested expression, or none. -/
theorem Arg.hasOutline : ∀ {a : Argument} {t : Text}, Arg t a → t.HasOutline isNameChar a.outline
  | .expr _, _, .expr h => h.hasOutline
  | .str _, _, .str h => .of_isQuoted h
  | .num _, _, .num h => .of_isPlain h.isPlain
  | .bool _, _, .bool b => .of_isPlain (isPlain_booleanText b)

/-- The steps of an accessor have their outlines in order, behind any text. -/
theorem Steps.hasOutline : ∀ {xs : List Step} {t : Text}, Steps t xs →
    t.HasOutline noChar (Step.outlines xs)
  | [], _, .nil => .nil
  | _ :: _, _, .cons hw hx hxs => .plain_append hw.isPlain (hx.hasOutline.append hxs.hasOutline)

/-- A member step leaves no mark, an index step its two brackets around the index. -/
theorem AccessStep.hasOutline : ∀ {x : Step} {t : Text}, AccessStep t x →
    t.HasOutline noChar x.outline
  | .member _, _, .member hw hname => by
    have hplain := List.forall_mem_append.2 ⟨hw.isPlain, hname.isPlain⟩
    exact .of_isPlain (List.forall_mem_cons.2 ⟨by decide, hplain⟩)
  | .index _, _, .index hw₁ hi hw₂ => .bracketed hw₁ hi.hasOutline hw₂

theorem IndexValue.hasOutline : ∀ {i : Index} {t : Text}, IndexValue t i →
    t.HasOutline isNameChar i.outline
  | .expr _, _, .expr h => h.hasOutline
  | .num _, _, .num h => .of_isPlain h.isPlain
  | .property _, _, .property h => .of_isQuoted h

end

/-- Between its brackets an expression has its outline between their two marks. -/
theorem Enclosed.hasOutline {s : Text} {e : Expr} (h : Enclosed s e) :
    s.HasOutline noChar (.index :: (e.outline ++ [.indexEnd])) := by
  obtain ⟨w₁, t, w₂, rfl, hw₁, ht, hw₂⟩ := h
  exact .bracketed hw₁ ht.hasOutline hw₂

/-- The outline of a whole text that is an expression. -/
theorem Enclosed.outlineFrom_eq {s : Text} {e : Expr} (h : Enclosed s e) :
    Text.outlineFrom [] s = .index :: (e.outline ++ [.indexEnd]) :=
  h.hasOutline.outlineFrom_eq [] (by simp) (Text.endsOutside_nil _)

end Grammar

end BracketExpr
