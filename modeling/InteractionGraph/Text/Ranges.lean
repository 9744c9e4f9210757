/-!
# Ranges of code points

Properties of characters that no rule describes are kept as lists of ranges, each with its
first and its last code point.
-/

namespace InteractionGraph.Text

/-- A range of code points: the first and the last of them. -/
abbrev CodeRange := Nat × Nat

/-- Whether a character lies in one of the ranges. -/
def inRanges (ranges : List CodeRange) (c : Char) : Bool :=
  ranges.any fun range => range.1 ≤ c.toNat && c.toNat ≤ range.2

end InteractionGraph.Text
