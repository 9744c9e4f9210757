/-!
# Hexadecimal numerals

Numbers in base sixteen, written with the lower-case digits and without leading zeros, or
filled up with zeros to a least width.
-/

namespace InteractionGraph.Text

/-- The numeral of a number in base sixteen, without leading zeros. -/
def hexadecimal (n : Nat) : List Char := Nat.toDigits 16 n

/-- The numeral of a number in base sixteen, filled up with leading zeros to `width` digits. -/
def paddedHexadecimal (width n : Nat) : List Char :=
  let digits := hexadecimal n
  List.replicate (width - digits.length) '0' ++ digits

example : hexadecimal 0 = ['0'] := by decide
example : hexadecimal 0xabc = ['a', 'b', 'c'] := by decide
example : paddedHexadecimal 4 0xff = ['0', '0', 'f', 'f'] := by decide

end InteractionGraph.Text
