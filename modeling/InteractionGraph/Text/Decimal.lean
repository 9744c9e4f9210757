/-!
# Decimal numerals of 32-bit words

A numeral is a run of ASCII digits, with as many leading zeros as one likes.
-/

namespace InteractionGraph.Text

/-- The word that a run of digits stands for, if it is not too large. -/
def wordOfDigits? (digits : List Char) : Option UInt32 :=
  let value := Nat.ofDigitChars 10 digits 0
  if value < UInt32.size then some (UInt32.ofNat value) else none

/-- The word that a numeral stands for.  A single plus sign may stand before the digits, of
which there has to be at least one. -/
def wordOfNumeral? (numeral : List Char) : Option UInt32 :=
  let digits :=
    match numeral with
    | '+' :: digits => digits
    | digits => digits
  if digits ≠ [] ∧ digits.all Char.isDigit then wordOfDigits? digits else none

example : wordOfNumeral? ['+', '0', '7'] = some 7 := by decide
example : wordOfNumeral? [] = none ∧ wordOfNumeral? ['+'] = none := by decide
example : wordOfNumeral? ['+', '+', '7'] = none ∧ wordOfNumeral? ['-', '0'] = none := by decide

end InteractionGraph.Text
