import BracketExpr.Proofs.CursorReading
import BracketExpr.Proofs.LexemeEnd
import BracketExpr.Proofs.RoundTrip
import Mathlib.Algebra.Group.Int.Defs
import Mathlib.Algebra.Group.Nat.Defs

/-!
# Numbers are read exactly

A number is read from the longest text of an optional sign and digits at the cursor, whatever that
text is worth. The reading succeeds if and only if it has a digit and its decimal value, with any
number of leading zeros, is one of the signed 64-bit range; the cursor moves past the text in any
case. What is written for a number is read back as the number.
-/

namespace BracketExpr

/-! ## Decimal values -/

/-- An optional minus sign and any number of digits. -/
def IsSignedDigits (w : Text) : Prop :=
  ∃ digits : Text, (w = digits ∨ w = '-' :: digits) ∧ ∀ c ∈ digits, c.isDigit

/-- The number that decimal digits stand for: each of them counts as many times as its place
says. -/
def placeValue : Text → Nat
  | [] => 0
  | c :: w => (c.toNat - '0'.toNat) * 10 ^ w.length + placeValue w

/-- The text has a digit, and its value is that of the digits, negated behind a minus sign. -/
inductive HasDecimalValue : Text → Int → Prop where
  | natural {w : Text} (hw : w.IsRun Char.isDigit) : HasDecimalValue w (placeValue w)
  | negative {w : Text} (hw : w.IsRun Char.isDigit) :
    HasDecimalValue ('-' :: w) (-(placeValue w : Int))

/-- The value of digits from the left, each multiplying what stands before it, is their value by
places. -/
theorem ofDigitChars_eq_placeValue (w : Text) : Nat.ofDigitChars 10 w 0 = placeValue w := by
  induction w with
  | nil => rfl
  | cons c w ih =>
    rw [Nat.ofDigitChars_cons, Nat.ofDigitChars_eq_ofDigitChars_zero, ih, placeValue, Nat.mul_zero,
      Nat.zero_add, Nat.mul_comm]

/-- The grammar's numerals of a machine integer are the texts with its value in base ten. -/
theorem isNumeral_iff_hasDecimalValue {w : Text} {n : Int64} :
    IsNumeral w n ↔ HasDecimalValue w n.toInt := by
  constructor
  · intro h
    cases h with
    | natural hw hn =>
      rw [hn, ofDigitChars_eq_placeValue]
      exact .natural hw
    | negative hw hn =>
      rw [hn, ofDigitChars_eq_placeValue]
      exact .negative hw
  · intro h
    generalize hk : n.toInt = k at h
    cases h with
    | natural hw => exact .natural hw (by rw [hk, ofDigitChars_eq_placeValue])
    | negative hw => exact .negative hw (by rw [hk, ofDigitChars_eq_placeValue])

/-- A numeral has a decimal value in the signed 64-bit range, and it stands for that value. -/
theorem isNumeral_iff_exists_value {w : Text} {n : Int64} :
    IsNumeral w n ↔ ∃ k, HasDecimalValue w k ∧ -2 ^ 63 ≤ k ∧ k ≤ 2 ^ 63 - 1 ∧ n.toInt = k := by
  rw [isNumeral_iff_hasDecimalValue]
  constructor
  · intro h
    exact ⟨n.toInt, h, n.le_toInt, Int.le_sub_one_of_lt n.toInt_lt, rfl⟩
  · rintro ⟨_, h, -, -, rfl⟩
    exact h

/-- A text is a numeral of one integer at most. -/
theorem IsNumeral.unique {w : Text} {n n' : Int64} (h : IsNumeral w n) (h' : IsNumeral w n') :
    n = n' :=
  Option.some.inj ((Numeral.value?_of_isNumeral h).symm.trans (Numeral.value?_of_isNumeral h'))

/-! ## The scan for numbers -/

/-- The scan takes an optional sign and digits, and nothing else. -/
theorem Numeral.isSignedDigits_scan (s : Text) : IsSignedDigits (scan s) := by
  fun_cases scan s with
  | case1 s => exact ⟨_, .inr rfl, takeWhile_isDigit⟩
  | case2 s => exact ⟨_, .inl rfl, takeWhile_isDigit⟩

/-- No longer text of an optional sign and digits stands where a number is scanned. -/
theorem Numeral.length_le_length_scan {v s : Text} (h : v <+: s) (hv : IsSignedDigits v) :
    v.length ≤ (scan s).length := by
  obtain ⟨digits, rfl | rfl, hdigits⟩ := hv
  · fun_cases scan s with
    | case1 s =>
      -- No digit is a minus sign, so there is none at the start.
      rcases List.prefix_cons_iff.1 h with rfl | ⟨t, rfl, -⟩
      · exact Nat.zero_le _
      · exact absurd (hdigits '-' List.mem_cons_self) (by decide)
    | case2 s => exact Text.length_le_length_takeWhile h hdigits
  · obtain ⟨t, rfl⟩ := h
    rw [List.cons_append, scan, List.length_cons, List.length_cons]
    exact Nat.succ_le_succ (Text.length_le_length_takeWhile (List.prefix_append digits t) hdigits)

/-- What the scan takes is the longest prefix made of an optional sign and digits. -/
theorem Numeral.isLongestPrefix_iff_eq_scan {v s : Text} :
    v.IsLongestPrefix IsSignedDigits s ↔ v = scan s := by
  have hscan : Text.IsLongestPrefix IsSignedDigits (scan s) s :=
    ⟨scan_isPrefix s, isSignedDigits_scan s, fun v => length_le_length_scan⟩
  constructor
  · intro hv
    exact hv.eq hscan
  · rintro rfl
    exact hscan

/-- A number is read, or is missed, from the text that is scanned for it, which is taken in both
cases. -/
theorem Reader.number_cases (s : Text) :
    (∃ n, IsNumeral (Numeral.scan s) n ∧
      number s = .done n (s.drop (Numeral.scan s).length)) ∨
    (∀ n, ¬ IsNumeral (Numeral.scan s) n) ∧
      number s = .failed ⟨.invalidNumber, s, some (Numeral.scan s)⟩
        (s.drop (Numeral.scan s).length) := by
  by_cases h : ∃ n, IsNumeral (Numeral.scan s) n
  · obtain ⟨n, hn⟩ := h
    refine .inl ⟨n, hn, ?_⟩
    simp only [number, Numeral.value?_of_isNumeral hn]
  · have hnone := not_exists.1 h
    refine .inr ⟨hnone, ?_⟩
    simp only [number]
    split
    next n hn => exact absurd (Numeral.isNumeral_scan hn) (hnone n)
    next => rfl

/-! ## At a cursor -/

namespace Cursor

/-- What the reading of a number at the cursor `c` comes to, where `m` is the text that is scanned
for it. -/
structure NumberRead (c : Cursor) (m : Text) : Prop where
  /-- The text is the longest one that is made of an optional sign and digits. -/
  longest_iff : ∀ v : Text, v.IsLongestPrefix IsSignedDigits c.rest ↔ v = m
  /-- The cursor moves past the text in any case. -/
  stops : (c.run Reader.number).2 = ⟨c.consumed ++ m, c.rest.drop m.length⟩
  /-- The reading succeeds if the text has a value in the signed 64-bit range. -/
  ok_iff : ∀ n : Int64, (c.run Reader.number).1 = .ok n ↔
    ∃ k, HasDecimalValue m k ∧ -2 ^ 63 ≤ k ∧ k ≤ 2 ^ 63 - 1 ∧ n.toInt = k
  /-- Otherwise the number is invalid, and all of the text is shown. -/
  error_of : (¬ ∃ k, HasDecimalValue m k ∧ -2 ^ 63 ≤ k ∧ k ≤ 2 ^ 63 - 1) →
    (c.run Reader.number).1 = .error ⟨.invalidNumber, c.position, some (String.ofList m)⟩

/-- The reader of numbers always moves over what the scan takes, and its answer depends on that text
only. -/
theorem numberRead_scan (c : Cursor) : NumberRead c (Numeral.scan c.rest) where
  longest_iff _ := Numeral.isLongestPrefix_iff_eq_scan
  stops := by
    rw [← moveTo_drop (Numeral.scan_isPrefix c.rest)]
    rcases Reader.number_cases c.rest with ⟨n, -, hread⟩ | ⟨-, hread⟩
    · rw [run_of_done hread]
    · rw [run_of_failed hread]
  ok_iff n := by
    rw [← isNumeral_iff_exists_value]
    rcases Reader.number_cases c.rest with ⟨n', hn', hread⟩ | ⟨hnone, hread⟩
    · rw [run_of_done hread]
      constructor
      · intro h
        exact Except.ok.inj h ▸ hn'
      · intro hn
        rw [hn'.unique hn]
    · rw [run_of_failed hread]
      exact iff_of_false nofun (hnone n)
  error_of h := by
    rcases Reader.number_cases c.rest with ⟨n, hn, hread⟩ | ⟨-, hread⟩
    · obtain ⟨k, hk, hmin, hmax, -⟩ := isNumeral_iff_exists_value.1 hn
      exact absurd ⟨k, hk, hmin, hmax⟩ h
    · rw [run_of_failed hread, diagnose_of_rest_eq rfl]
      rfl

/-- Numbers are read exactly. From every cursor the longest text of an optional sign and digits is
taken, and it is read as its decimal value if it has one in the signed 64-bit range, and otherwise
shown as an invalid number. In front of a text that starts with no digit, what is written for a
number is read back as this number, up to its end. -/
theorem run_number_exact :
    (∀ c : Cursor, ∃ m, NumberRead c m) ∧
    ∀ (n : Int64) (u r : Text), r.StartsOutside Char.isDigit →
      (Cursor.mk u (Numeral.text n.toInt ++ r)).run Reader.number =
        (.ok n, ⟨u ++ Numeral.text n.toInt, r⟩) := by
  refine ⟨fun c => ⟨_, numberRead_scan c⟩, fun n u r hr => ?_⟩
  exact run_append_of_done (Reader.number_append (Numeral.isNumeral_text n) hr) u

/-- The least number of the range is read back, and the one below it is missed behind zeros. -/
theorem run_number_exact_least :
    (Text.StartsOutside Char.isDigit ['é', '0'] ∧
      Numeral.text Int64.minValue.toInt = "-9223372036854775808".toList ∧
      (Cursor.mk ['é'] ("-9223372036854775808".toList ++ ['é', '0'])).run Reader.number =
        (.ok Int64.minValue, ⟨['é'] ++ "-9223372036854775808".toList, ['é', '0']⟩)) ∧
    NumberRead ⟨['é'], "-009223372036854775809)".toList⟩ "-009223372036854775809".toList ∧
      (Cursor.mk ['é'] "-009223372036854775809)".toList).run Reader.number =
        (.error ⟨.invalidNumber, 2, some "-009223372036854775809"⟩,
          ⟨['é'] ++ "-009223372036854775809".toList, [')']⟩) := by
  obtain ⟨hread, hwritten⟩ := run_number_exact
  have houtside : Text.StartsOutside Char.isDigit ['é', '0'] :=
    Text.startsOutside_cons.2 (by decide)
  have htext : Numeral.text Int64.minValue.toInt = "-9223372036854775808".toList := by
    decide +kernel
  have hmiss : (Cursor.mk ['é'] "-009223372036854775809)".toList).run Reader.number =
      (.error ⟨.invalidNumber, 2, some "-009223372036854775809"⟩,
        ⟨['é'] ++ "-009223372036854775809".toList, [')']⟩) := by decide +kernel
  refine ⟨⟨houtside, htext, ?_⟩, ?_, hmiss⟩
  · rw [← htext]
    exact hwritten Int64.minValue ['é'] ['é', '0'] houtside
  · obtain ⟨m, hm⟩ := hread ⟨['é'], "-009223372036854775809)".toList⟩
    have hstops := hm.stops
    rw [hmiss] at hstops
    have hconsumed : ['é'] ++ "-009223372036854775809".toList = ['é'] ++ m :=
      congrArg consumed hstops
    obtain rfl := List.append_cancel_left hconsumed
    exact hm

end Cursor

end BracketExpr
