import BracketExpr.Reader

/-!
# Numerals

Numbers are signed 64-bit integers in decimal notation. Reading takes the longest text made of an
optional minus sign and digits, and it takes that text even if it turns out to be no number: a
sign without digits, or a value outside the range. Leading zeros are fine.
-/

namespace BracketExpr

namespace Numeral

/-- The longest text of an optional minus sign and digits at the start of a text. -/
def scan : Text → Text
  | '-' :: s => '-' :: s.takeWhile Char.isDigit
  | s => s.takeWhile Char.isDigit

/-- The value of a text of digits, if it has at least one. -/
def natural? (digits : Text) : Option Nat :=
  if digits.isEmpty then none else some (Nat.ofDigitChars 10 digits 0)

/-- The value of a text of an optional minus sign and digits, if it has at least one digit. -/
def value? : Text → Option Int
  | '-' :: digits => (natural? digits).map fun n : Nat => -(n : Int)
  | digits => (natural? digits).map fun n : Nat => (n : Int)

/-- The integer as a 64-bit number, if it is in range. -/
def int64? (k : Int) : Option Int64 :=
  if Int64.minValue.toInt ≤ k ∧ k ≤ Int64.maxValue.toInt then some (Int64.ofInt k) else none

/-- The decimal digits of a natural number, without leading zeros. -/
def naturalText (n : Nat) : Text :=
  Nat.toDigits 10 n

/-- The decimal text of an integer: a minus sign if it is negative, and the digits. -/
def text : Int → Text
  | .ofNat n => naturalText n
  | .negSucc n => '-' :: naturalText (n + 1)

end Numeral

namespace Reader

/-- Reads a number. A text that is no number is a fault at its start, which shows the sign and
digits that were taken, even if there are none. -/
def number : Reader Int64 where
  read s :=
    let w := Numeral.scan s
    match (Numeral.value? w).bind Numeral.int64? with
    | some n => .done n (s.drop w.length)
    | none => .failed ⟨.invalidNumber, s, some w⟩ (s.drop w.length)
  within s := by
    dsimp only
    split
    · exact List.drop_suffix _ s
    · exact ⟨List.drop_suffix _ s, List.suffix_refl s⟩

end Reader

end BracketExpr
