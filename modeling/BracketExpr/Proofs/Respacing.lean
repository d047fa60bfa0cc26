import BracketExpr.Proofs.Outline
import BracketExpr.Proofs.Recognition

/-!
# Blanks between tokens have no meaning

Each blank of an expression that stands outside quotes can be exchanged for any number of blanks,
or for none, whatever becomes of the other ones. The grammar has blanks between tokens only, and
there it has any text of blanks; so what a production derives from its parts it derives from the
parts with other blanks too.

That a blank stands outside quotes is a fact about all the text before it. `Text.Respaces` says of
a part what has to be known of it in every such place, with one rule for each way in which a
production puts parts together.
-/

namespace BracketExpr

namespace Text

/-! ## Other blanks -/

/-- The text that stands behind `before`, with other blanks outside quotes: `fill` says what takes
the place of a blank, given all the text before it. -/
def respaceFrom (fill : Text → Text) (before : Text) : Text → Text
  | [] => []
  | c :: s =>
    if isBlank c ∧ Even (before.count '\x27') then
      fill before ++ respaceFrom fill (before ++ [c]) s
    else c :: respaceFrom fill (before ++ [c]) s

/-- A text with other blanks outside quotes. No two blanks have the same text before them, so `fill`
treats each of them in its own way. -/
def respace (fill : Text → Text) (s : Text) : Text :=
  respaceFrom fill [] s

/-- A text without blanks and quotes. -/
def IsSolid (s : Text) : Prop :=
  ∀ c ∈ s, isBlank c = false ∧ c ≠ '\x27'

section

variable {fill : Text → Text} {before : Text}

/-- Two texts in a row are respaced one after the other, the second seen behind the first. -/
theorem respaceFrom_append (fill : Text → Text) (before s t : Text) :
    respaceFrom fill before (s ++ t) =
      respaceFrom fill before s ++ respaceFrom fill (before ++ s) t := by
  induction s generalizing before with
  | nil => rw [List.nil_append, List.append_nil, respaceFrom, List.nil_append]
  | cons c s ih =>
    rw [List.cons_append, respaceFrom, respaceFrom, ih, List.append_assoc, List.singleton_append]
    split
    · rw [List.append_assoc]
    · rfl

theorem respaceFrom_cons_of_not_blank {c : Char} (h : isBlank c = false) (s : Text) :
    respaceFrom fill before (c :: s) = c :: respaceFrom fill (before ++ [c]) s := by
  rw [respaceFrom, if_neg]
  rintro ⟨hc, -⟩
  rw [hc] at h
  cases h

/-- Inside quotes every character stays. -/
theorem respaceFrom_cons_of_odd (h : ¬ Even (before.count '\x27')) (c : Char) (s : Text) :
    respaceFrom fill before (c :: s) = c :: respaceFrom fill (before ++ [c]) s := by
  rw [respaceFrom, if_neg]
  rintro ⟨-, heven⟩
  exact h heven

end

/-! ## Parts of a text -/

/-- Behind every text that leaves no quote open, the text `t` has `G` once it has other blanks, and
it leaves no quote open either. -/
structure Respaces (fill : Text → Text) (t : Text) (G : Text → Prop) : Prop where
  even : Even (t.count '\x27')
  respaceFrom : ∀ before : Text, Even (before.count '\x27') → G (respaceFrom fill before t)

namespace Respaces

variable {fill : Text → Text} {s t w : Text} {G H : Text → Prop}

theorem mono (h : Respaces fill t G) (hGH : ∀ u, G u → H u) : Respaces fill t H where
  even := h.even
  respaceFrom before heven := hGH _ (h.respaceFrom before heven)

theorem nil (h : G []) : Respaces fill [] G where
  even := by simp
  respaceFrom _ _ := h

/-- Two texts in a row may be respaced apart from each other. -/
theorem append (hs : Respaces fill s G)
    (ht : ∀ u, G u → Respaces fill t fun v => H (u ++ v)) : Respaces fill (s ++ t) H where
  even := by
    rw [List.count_append]
    exact hs.even.add (ht _ (hs.respaceFrom [] (by simp))).even
  respaceFrom before heven := by
    rw [respaceFrom_append]
    refine (ht _ (hs.respaceFrom before heven)).respaceFrom (before ++ s) ?_
    rw [List.count_append]
    exact heven.add hs.even

/-- A bracket or a separator in front of a text. -/
theorem cons {c : Char} (hblank : isBlank c = false) (hquote : c ≠ '\x27')
    (ht : Respaces fill t fun v => H (c :: v)) : Respaces fill (c :: t) H where
  even := by
    rw [List.count_cons_of_ne hquote]
    exact ht.even
  respaceFrom before heven := by
    rw [respaceFrom_cons_of_not_blank hblank]
    refine ht.respaceFrom (before ++ [c]) ?_
    rwa [List.count_append, List.count_singleton, if_neg (by simpa using hquote), Nat.add_zero]

/-- A text without blanks and quotes is not changed. -/
theorem of_isSolid (h : t.IsSolid) : Respaces fill t (· = t) := by
  induction t with
  | nil => exact nil rfl
  | cons c t ih =>
    obtain ⟨⟨hblank, hquote⟩, ht⟩ := List.forall_mem_cons.1 h
    exact cons hblank hquote ((ih ht).mono fun u hu => congrArg (c :: ·) hu)

theorem isSolid_append (hs : s.IsSolid) (ht : Respaces fill t fun v => H (s ++ v)) :
    Respaces fill (s ++ t) H := by
  refine (of_isSolid hs).append fun u hu => ?_
  rw [hu]
  exact ht

/-- What takes the place of blanks is blank. -/
theorem of_isBlank (hfill : ∀ u, (fill u).IsBlank) (hw : w.IsBlank) :
    Respaces fill w IsBlank where
  even := by
    rw [hw.isPlain.count_quote]
    exact Even.zero
  respaceFrom before heven := by
    induction w generalizing before with
    | nil => exact isBlank_nil
    | cons c w ih =>
      obtain ⟨hc, hw⟩ := List.forall_mem_cons.1 hw
      have hquote : c ≠ '\x27' := by
        rintro rfl
        exact absurd hc (by decide)
      rw [Text.respaceFrom, if_pos ⟨hc, heven⟩]
      refine (hfill before).append (ih hw (before ++ [c]) ?_)
      rwa [List.count_append, List.count_singleton, if_neg (by simpa using hquote), Nat.add_zero]

/-- Between quotes nothing is exchanged: after a doubled quote the text is inside them again. -/
theorem respaceFrom_eq_of_isQuotedBody {before b v : Text} (h : IsQuotedBody b v)
    (hodd : ¬ Even (before.count '\x27')) : Text.respaceFrom fill before b = b := by
  induction h generalizing before with
  | nil => rfl
  | @char c w v hc h ih =>
    rw [respaceFrom_cons_of_odd hodd, ih]
    rwa [List.count_append, List.count_singleton, if_neg (by simpa using hc), Nat.add_zero]
  | @quote w v h ih =>
    rw [respaceFrom_cons_of_not_blank (by decide), respaceFrom_cons_of_not_blank (by decide), ih]
    simpa [Nat.even_add_one] using hodd

/-- Between quotes blanks are part of the string and stay. -/
theorem of_isQuoted {v : Text} (h : IsQuoted w v) : Respaces fill w (· = w) where
  even := (h.outlineFrom [] (by simp)).2
  respaceFrom before heven := by
    obtain ⟨b, rfl, hb⟩ := h
    have hodd : ¬ Even ((before ++ ['\x27']).count '\x27') := by
      simpa [Nat.even_add_one] using heven
    rw [respaceFrom_cons_of_not_blank (by decide), respaceFrom_append,
      respaceFrom_eq_of_isQuotedBody hb hodd, respaceFrom_cons_of_not_blank (by decide)]
    rfl

end Respaces

end Text

/-! ## Lexemes -/

/-- A class without blanks and without the quote. -/
theorem isSolid_of_class {p : Char → Bool}
    (hp : [' ', '\t', '\r', '\n', '\x27'].any p = false) {w : Text} (hw : ∀ c ∈ w, p c) :
    w.IsSolid := by
  intro c hc
  have hne (d : Char) (hd : d ∈ [' ', '\t', '\r', '\n', '\x27']) : c ≠ d := by
    rintro rfl
    exact List.any_eq_false.1 hp c hd (hw c hc)
  refine ⟨Bool.eq_false_iff.2 fun hb => ?_, hne _ (by decide)⟩
  rcases isBlank_iff.1 hb with rfl | rfl | rfl | rfl <;> exact hne _ (by decide) rfl

theorem IsFunctionName.isSolid {w : Text} (h : IsFunctionName w) : w.IsSolid :=
  isSolid_of_class (by decide) h.isNameChar

theorem IsMemberName.isSolid {w : Text} (h : IsMemberName w) : w.IsSolid :=
  isSolid_of_class (by decide) h.2

theorem IsNumeral.isSolid {w : Text} {n : Int64} (h : IsNumeral w n) : w.IsSolid := by
  cases h with
  | natural hw => exact isSolid_of_class (by decide) hw.2
  | negative hw => exact List.forall_mem_cons.2 ⟨by decide, isSolid_of_class (by decide) hw.2⟩

theorem isSolid_booleanText (b : Bool) : (booleanText b).IsSolid :=
  (isFunctionName_booleanText b).isSolid

/-! ## Productions -/

namespace Grammar

open Text (Respaces)

variable {fill : Text → Text}

mutual

/-- With other blanks, an expression is an expression with the same tree. -/
theorem Expression.respaces (hfill : ∀ u, (fill u).IsBlank) : ∀ {e : Expr} {t : Text},
    Expression t e → Respaces fill t (Expression · e)
  | ⟨⟨name, args⟩, steps⟩, _, .mk hname hw₁ hw₂ hargs hw₃ hsteps => by
    refine .isSolid_append hname.isSolid ?_
    refine .append (.of_isBlank hfill hw₁) fun w₁ hw₁ => .cons (by decide) (by decide) ?_
    refine .append (.of_isBlank hfill hw₂) fun w₂ hw₂ => ?_
    refine .append (hargs.respaces hfill) fun a hargs => ?_
    refine .append (.of_isBlank hfill hw₃) fun w₃ hw₃ => .cons (by decide) (by decide) ?_
    exact (hsteps.respaces hfill).mono fun t hsteps => .mk hname hw₁ hw₂ hargs hw₃ hsteps

/-- Other blanks leave a list of arguments one that is read as the same arguments. -/
theorem Arguments.respaces (hfill : ∀ u, (fill u).IsBlank) : ∀ {args : List Argument} {t : Text},
    Arguments t args → Respaces fill t (Arguments · args)
  | [], _, .nil => .nil .nil
  | _ :: _, _, .cons ha hargs => by
    refine .append (ha.respaces hfill) fun s ha => ?_
    exact (hargs.respaces hfill).mono fun t hargs => .cons ha hargs

theorem FurtherArguments.respaces (hfill : ∀ u, (fill u).IsBlank) :
    ∀ {args : List Argument} {t : Text}, FurtherArguments t args →
      Respaces fill t (FurtherArguments · args)
  | [], _, .nil => .nil .nil
  | _ :: _, _, .cons hw₁ hw₂ ha hargs => by
    refine .append (.of_isBlank hfill hw₁) fun w₁ hw₁ => .cons (by decide) (by decide) ?_
    refine .append (.of_isBlank hfill hw₂) fun w₂ hw₂ => ?_
    refine .append (ha.respaces hfill) fun s ha => ?_
    exact (hargs.respaces hfill).mono fun t hargs => .cons hw₁ hw₂ ha hargs

theorem Arg.respaces (hfill : ∀ u, (fill u).IsBlank) : ∀ {a : Argument} {t : Text},
    Arg t a → Respaces fill t (Arg · a)
  | .expr _, _, .expr h => (h.respaces hfill).mono fun _ => .expr
  | .str _, _, .str h => (Respaces.of_isQuoted h).mono fun _ hu => hu ▸ .str h
  | .num _, _, .num h => (Respaces.of_isSolid h.isSolid).mono fun _ hu => hu ▸ .num h
  | .bool _, _, .bool b =>
    (Respaces.of_isSolid (isSolid_booleanText b)).mono fun _ hu => hu ▸ .bool b

/-- Other blanks leave the steps of an accessor the same steps. -/
theorem Steps.respaces (hfill : ∀ u, (fill u).IsBlank) : ∀ {xs : List Step} {t : Text},
    Steps t xs → Respaces fill t (Steps · xs)
  | [], _, .nil => .nil .nil
  | _ :: _, _, .cons hw hx hxs => by
    refine .append (.of_isBlank hfill hw) fun w hw => ?_
    refine .append (hx.respaces hfill) fun s hx => ?_
    exact (hxs.respaces hfill).mono fun t hxs => .cons hw hx hxs

theorem AccessStep.respaces (hfill : ∀ u, (fill u).IsBlank) : ∀ {x : Step} {t : Text},
    AccessStep t x → Respaces fill t (AccessStep · x)
  | .member _, _, .member hw hname => by
    refine .cons (by decide) (by decide) (.append (.of_isBlank hfill hw) fun w hw => ?_)
    exact (Respaces.of_isSolid hname.isSolid).mono fun _ hu => hu ▸ .member hw hname
  | .index _, _, .index hw₁ hi hw₂ => by
    refine .cons (by decide) (by decide) (.append (.of_isBlank hfill hw₁) fun w₁ hw₁ => ?_)
    refine .append (hi.respaces hfill) fun s hi => ?_
    refine .append (.of_isBlank hfill hw₂) fun w₂ hw₂ => .cons (by decide) (by decide) ?_
    exact .nil (.index hw₁ hi hw₂)

theorem IndexValue.respaces (hfill : ∀ u, (fill u).IsBlank) : ∀ {i : Index} {t : Text},
    IndexValue t i → Respaces fill t (IndexValue · i)
  | .expr _, _, .expr h => (h.respaces hfill).mono fun _ => .expr
  | .num _, _, .num h => (Respaces.of_isSolid h.isSolid).mono fun _ hu => hu ▸ .num h
  | .property _, _, .property h => (Respaces.of_isQuoted h).mono fun _ hu => hu ▸ .property h

end

/-- Other blanks leave an expression in brackets the same expression. -/
theorem Enclosed.respaces (hfill : ∀ u, (fill u).IsBlank) {s : Text} {e : Expr}
    (h : Enclosed s e) : Respaces fill s (Enclosed · e) := by
  obtain ⟨w₁, t, w₂, rfl, hw₁, ht, hw₂⟩ := h
  refine .cons (by decide) (by decide) (.append (.of_isBlank hfill hw₁) fun w₁ hw₁ => ?_)
  refine .append (ht.respaces hfill) fun t ht => ?_
  refine .append (.of_isBlank hfill hw₂) fun w₂ hw₂ => .cons (by decide) (by decide) ?_
  exact .nil ⟨w₁, t, w₂, rfl, hw₁, ht, hw₂⟩

end Grammar

/-! ## Classification -/

/-- The blanks of an expression that stand outside quotes can be left out, multiplied and exchanged
for other ones, each of them on its own, and the tree of the expression stays the same. -/
theorem classify_respace {limit : Nat} {s : String} {e : Expr}
    (h : classify limit s = .ok (.expression e)) {fill : Text → Text}
    (hfill : ∀ before, (fill before).IsBlank) :
    classify limit (String.ofList (Text.respace fill s.toList)) = .ok (.expression e) := by
  obtain ⟨henclosed, hd⟩ := enclosed_of_classify h
  refine classify_of_enclosed ?_ hd
  rw [String.toList_ofList]
  exact (henclosed.respaces hfill).respaceFrom [] (by simp)

/-- Blanks that are left out, exchanged for a tab and doubled by turns. Those in quotes stay. -/
theorem classify_respace_by_turns :
    classify 2 "[ f ( 'a '' é' , -1 ) [ g( true ) ] . m ]" = .ok (.expression
      ⟨⟨"f", [.str "a ' é", .num (-1)]⟩,
        [.index (.expr ⟨⟨"g", [.bool true]⟩, []⟩), .member "m"]⟩) ∧
    (∀ before : Text, Text.IsBlank (List.replicate (before.length % 3) '\t')) ∧
    String.ofList (Text.respace (fun before => List.replicate (before.length % 3) '\t')
      "[ f ( 'a '' é' , -1 ) [ g( true ) ] . m ]".toList) =
        "[\tf(\t\t'a '' é'\t\t,\t-1\t)[\t\tg(\t\ttrue\t)]\t\t.\tm]" ∧
    classify 2 "[\tf(\t\t'a '' é'\t\t,\t-1\t)[\t\tg(\t\ttrue\t)]\t\t.\tm]" = .ok (.expression
      ⟨⟨"f", [.str "a ' é", .num (-1)]⟩,
        [.index (.expr ⟨⟨"g", [.bool true]⟩, []⟩), .member "m"]⟩) := by
  have h : classify 2 "[ f ( 'a '' é' , -1 ) [ g( true ) ] . m ]" = .ok (.expression
      ⟨⟨"f", [.str "a ' é", .num (-1)]⟩,
        [.index (.expr ⟨⟨"g", [.bool true]⟩, []⟩), .member "m"]⟩) := by decide +kernel
  have hfill (before : Text) : Text.IsBlank (List.replicate (before.length % 3) '\t') := by
    intro c hc
    rw [List.eq_of_mem_replicate hc]
    decide
  have htext : String.ofList (Text.respace (fun before => List.replicate (before.length % 3) '\t')
      "[ f ( 'a '' é' , -1 ) [ g( true ) ] . m ]".toList) =
        "[\tf(\t\t'a '' é'\t\t,\t-1\t)[\t\tg(\t\ttrue\t)]\t\t.\tm]" := by
    decide +kernel
  refine ⟨h, hfill, htext, ?_⟩
  rw [← htext]
  exact classify_respace h hfill

end BracketExpr
