import InteractionGraph.Text.Blank
import InteractionGraph.Text.Width

/-!
# Lines as they are drawn

To show a text it is cut at every line terminator of Unicode, not only at line feeds.  A
`SourceLine` knows its number and where it begins, and how many terminal columns each of its
characters takes.  White space at the end of a line is not drawn.
-/

namespace InteractionGraph.Text

/-- Whether a line ends after a character. -/
def endsLine (c : Char) : Bool :=
  let code := c.toNat
  (0x0a ≤ code && code ≤ 0x0d) || code == 0x85 || code == 0x2028 || code == 0x2029

/-- The lines of a text, each with its terminator.  A text that ends with a terminator has no
empty line behind it. -/
def lines : List Char → List (List Char)
  | [] => []
  | '\r' :: '\n' :: rest => ['\r', '\n'] :: lines rest
  | c :: rest =>
    if endsLine c then [c] :: lines rest
    else
      match lines rest with
      | [] => [[c]]
      | line :: others => (c :: line) :: others

/-- A text without the white space at its end. -/
def trimEnd (text : List Char) : List Char := (text.reverse.dropWhile isBlank).reverse

/-- A line of a text: its number, counted from one, how many characters come before it and
its own characters with the terminator. -/
structure SourceLine where
  number : Nat
  start : Nat
  body : List Char
  deriving DecidableEq

namespace SourceLine

/-- The line with the character of the given index among `bodies`.  An index behind the last
line belongs to it. -/
def find (index number start : Nat) : List (List Char) → SourceLine
  | [] => ⟨number, start, []⟩
  | [body] => ⟨number, start, body⟩
  | body :: others =>
    if index < start + body.length then ⟨number, start, body⟩
    else find index (number + 1) (start + body.length) others

/-- The line with the character of the given index. -/
def ofIndex (text : List Char) (index : Nat) : SourceLine :=
  find index 1 0 (lines text)

/-- What is drawn of a line. -/
def shown (line : SourceLine) : List Char := trimEnd line.body

/-- The columns that a character takes which is the one of the given index in its line: a tab
reaches up to the next index that is a multiple of four, other white space takes one. -/
def widthOf (index : Nat) (c : Char) : Nat :=
  if c = '\t' then (index / 4 + 1) * 4 - index
  else if isBlank c then 1
  else columns c

/-- The columns of each of the first `count` characters; behind the last that is drawn there is
one each. -/
def widths (line : SourceLine) (count : Nat) : List Nat :=
  let known := line.shown.zipIdx.map fun (c, index) => widthOf index c
  known.take count ++ List.replicate (count - known.length) 1

/-- A line as it is drawn, with white space as plain spaces. -/
def drawn (line : SourceLine) : List Char :=
  (line.shown.zipIdx.map fun (c, index) =>
    if isBlank c then List.replicate (widthOf index c) ' ' else [c]).flatten

end SourceLine

end InteractionGraph.Text
