import InteractionGraph.Parse.Basic
import InteractionGraph.Text.Blank
import InteractionGraph.Text.Decimal
import InteractionGraph.Word.Operator

/-!
# Tokens

The pieces that the text of a term is made of, and the room between them.

Room is white space and comments, which begin with two slashes and run up to the end of their
line.  The rules of the grammar take the parser of room as a parameter, `room`, so that they
can be read without regard to what it leaves; `blank` is the one that texts are read with.
-/

namespace InteractionGraph.Grammar

open Parse Parser Text

/-! ## Room between tokens -/

/-- One character of white space. -/
def whitespace : Parser Unit := named .whitespace do
  let _ ← satisfy isBlank

/-- A comment, without the line feed behind it. -/
def comment : Parser Unit := named .comment do
  chars ['/', '/']
  let _ ← many do
    notFollowedBy (char '\n')
    anyChar

/-- As much white space and as many comments as there are. -/
def blank : Parser Unit := do
  let _ ← many (whitespace <|> comment)

/-! ## Names and numbers -/

/-- The characters that names are made of. -/
def isNameChar (c : Char) : Bool := c.isAlphanum || c == '_' || c == '.' || c == '$'

/-- A name: as many characters of names as there are, and at least one. -/
def name : Parser String := named .name do
  let letters ← manyAtLeast 1 (satisfy isNameChar)
  return String.ofList letters

/-- The label that a run of digits stands for, or its rejection. -/
def labelOfDigits (digits : List Char) : Except Rejection UInt32 :=
  match wordOfDigits? digits with
  | some value => .ok value
  | none => .error (.labelTooLarge (String.ofList digits))

/-- The label of a superposition or duplication. -/
def label : Parser UInt32 :=
  verify (named .label (manyAtLeast 1 (named .digit (satisfy Char.isDigit)))) labelOfDigits

/-- The operators in the order in which they are tried.  A symbol that begins with another
comes before it, so that the longest one is read. -/
def operators : List Operator :=
  [.eq, .ne, .lsh, .rsh, .lte, .gte, .lt, .gt, .add, .sub, .mul, .div, .mod, .and, .or, .xor]

/-- The symbol of an operator. -/
def operator : Parser Operator :=
  named .operator (choice (operators.map fun operator => do
    chars operator.symbol.toList
    return operator))

/-! ## Lists -/

/-- Items up to a closing character, with nothing between them but room.  The closing
character is looked for before each item. -/
def closedBy {α : Type} (room : Parser Unit) (close : Char) (least : Nat) (item : Parser α) :
    Parser (List α) := do
  let items ← manyAtLeast least do
    notFollowedBy do
      room
      char close
    item
  room
  char close
  return items

end InteractionGraph.Grammar
