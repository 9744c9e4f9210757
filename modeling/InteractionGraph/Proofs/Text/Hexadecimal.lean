import InteractionGraph.Text.Hexadecimal
import Mathlib.Tactic.IntervalCases

/-!
# Reading hexadecimal numerals

A number is known by its numeral in base sixteen: `valueOf` reads the digits from left to right, and
zeros in front do not count.  So numerals with and without them are read in the same way.
-/

namespace InteractionGraph.Text

/-- The value of a hexadecimal digit. -/
def valueOfDigit (c : Char) : Nat :=
  if c.isDigit then c.toNat - '0'.toNat else c.toNat - 'a'.toNat + 10

/-- The number that a hexadecimal numeral stands for. -/
def valueOf (digits : List Char) : Nat :=
  digits.foldl (fun value c => 16 * value + valueOfDigit c) 0

theorem valueOfDigit_digitChar {n : Nat} (h : n < 16) : valueOfDigit (Nat.digitChar n) = n := by
  interval_cases n <;> decide

theorem valueOf_concat (digits : List Char) (c : Char) :
    valueOf (digits ++ [c]) = 16 * valueOf digits + valueOfDigit c := by
  rw [valueOf, List.foldl_append, ← valueOf]
  rfl

/-- A numeral is one digit, or a numeral with one more digit behind it. -/
theorem hexadecimal_eq (n : Nat) :
    hexadecimal n =
      if n < 16 then [Nat.digitChar n] else hexadecimal (n / 16) ++ [Nat.digitChar (n % 16)] :=
  Nat.toDigits_eq_if (by decide)

theorem valueOf_hexadecimal (n : Nat) : valueOf (hexadecimal n) = n := by
  induction n using Nat.strongRecOn with
  | ind n ih =>
    rw [hexadecimal_eq]
    split
    · rename_i hlt
      rw [← List.nil_append [_], valueOf_concat, valueOfDigit_digitChar hlt]
      exact Nat.zero_add n
    · rename_i hge
      have hdigit := valueOfDigit_digitChar (Nat.mod_lt n (by decide : 0 < 16))
      rw [valueOf_concat, ih (n / 16) (by omega), hdigit]
      omega

theorem colon_notMem_hexadecimal (n : Nat) : ':' ∉ hexadecimal n := by
  induction n using Nat.strongRecOn with
  | ind n ih =>
    rw [hexadecimal_eq]
    split
    · simp
    · rw [List.mem_append, not_or]
      exact ⟨ih (n / 16) (by omega), by simp⟩

theorem valueOf_replicate_append (count : Nat) (digits : List Char) :
    valueOf (List.replicate count '0' ++ digits) = valueOf digits := by
  induction count with
  | zero => rfl
  | succ count ih => exact ih

theorem valueOf_paddedHexadecimal (width n : Nat) : valueOf (paddedHexadecimal width n) = n :=
  (valueOf_replicate_append _ _).trans (valueOf_hexadecimal n)

theorem hexadecimal_injective : Function.Injective hexadecimal :=
  Function.LeftInverse.injective valueOf_hexadecimal

theorem paddedHexadecimal_injective (width : Nat) :
    Function.Injective (paddedHexadecimal width) :=
  Function.LeftInverse.injective (valueOf_paddedHexadecimal width)

end InteractionGraph.Text
