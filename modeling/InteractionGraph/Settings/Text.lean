import InteractionGraph.Parse.Basic
import InteractionGraph.Settings.Basic

/-!
# The text of settings

Settings are written in TOML.  With one key to assign, and an integer to assign to it, what is
left of that language is a list of lines, each with at most one assignment and at most one
comment:

```text
# number of cells
capacity = 65_536
```

The key may be quoted, and may then be spelled by code points.  An integer may have a sign and
single underscores between its digits, but no leading zeros; without a sign it may also be
written in base sixteen, eight or two.  Lines end with a line feed, which a carriage return may
come before.  Anything else that the language knows, another key or another kind of value, has
no place in settings.
-/

namespace InteractionGraph.Settings

open Parse Parser

/-- What a parser reads, if it succeeds. -/
private def optional {α : Type} (p : Parser α) : Parser (Option α) :=
  (do return some (← p)) <|> pure none

/-! ## Lines -/

/-- Room inside a line. -/
def space : Parser Unit := do
  let _ ← many (satisfy fun c => c == ' ' || c == '\t')

/-- Whether a character may stand in a comment or a quoted key: no control but the tab may. -/
def isPlain (c : Char) : Bool := c == '\t' || (0x20 ≤ c.toNat && c.toNat ≠ 0x7f)

/-- A comment, without the end of its line. -/
def comment : Parser Unit := do
  char '#'
  let _ ← many (satisfy isPlain)

/-- The end of a line. -/
def newline : Parser Unit := char '\n' <|> chars ['\r', '\n']

/-! ## Keys -/

/-- The value of a hexadecimal digit. -/
def hexValue? (c : Char) : Option Nat :=
  if c.isDigit then some (c.toNat - '0'.toNat)
  else if 'a' ≤ c ∧ c ≤ 'f' then some (c.toNat - 'a'.toNat + 10)
  else if 'A' ≤ c ∧ c ≤ 'F' then some (c.toNat - 'A'.toNat + 10)
  else none

/-- A number of exactly `count` hexadecimal digits. -/
def hexNumber (count : Nat) (value : Nat) : Parser Nat :=
  match count with
  | 0 => pure value
  | count + 1 => do
    let c ← anyChar
    match hexValue? c with
    | some digit => hexNumber count (16 * value + digit)
    | none => fail

/-- A character that is spelled by its code point. -/
def codePoint : Parser Char := do
  char '\\'
  let code ← choice
    [ do char 'x'; hexNumber 2 0,
      do char 'u'; hexNumber 4 0,
      do char 'U'; hexNumber 8 0 ]
  if code.isValidChar then return Char.ofNat code else fail

/-- A key without quotation marks. -/
def bareKey : Parser (List Char) :=
  manyAtLeast 1 (satisfy fun c => c.isAlphanum || c == '_' || c == '-')

/-- A key between double quotation marks.  Escapes that name no code point stand for controls
and marks that no key of the settings has. -/
def quotedKey : Parser (List Char) := do
  char '"'
  let letters ← many (codePoint <|> satisfy fun c => isPlain c && c != '"' && c != '\\')
  char '"'
  return letters

/-- A key between single quotation marks, where nothing is escaped. -/
def literalKey : Parser (List Char) := do
  char '\''
  let letters ← many (satisfy fun c => isPlain c && c != '\'')
  char '\''
  return letters

/-- A key. -/
def key : Parser String := do
  let letters ← choice [bareKey, quotedKey, literalKey]
  return String.ofList letters

/-! ## Integers -/

/-- The digits of a numeral, with single underscores between them. -/
def digits (accepts : Char → Bool) : Parser (List Char) := do
  let first ← satisfy accepts
  let others ← many ((do char '_'; satisfy accepts) <|> satisfy accepts)
  return first :: others

/-- The value of a run of digits in a given base. -/
def valueOf (base : Nat) (digits : List Char) : Nat :=
  digits.foldl (fun value c => base * value + (hexValue? c).getD 0) 0

/-- An integer in base sixteen, eight or two. -/
def radixInteger : Parser Int := choice
  [ do chars ['0', 'x']; return valueOf 16 (← digits fun c => (hexValue? c).isSome),
    do chars ['0', 'o']; return valueOf 8 (← digits fun c => '0' ≤ c && c ≤ '7'),
    do chars ['0', 'b']; return valueOf 2 (← digits fun c => c == '0' || c == '1') ]

/-- A decimal integer. -/
def decimalInteger : Parser Int := do
  let negative ← choice
    [ do char '-'; return true,
      do char '+'; return false,
      return false ]
  let digits ← digits Char.isDigit
  if digits.head? = some '0' ∧ digits.length ≠ 1 then fail
  else
    let value : Int := valueOf 10 digits
    return if negative then -value else value

/-- An integer. -/
def integer : Parser Int := radixInteger <|> decimalInteger

/-! ## Settings -/

/-- An assignment to the capacity. -/
def assignment : Parser Int := do
  let key ← key
  space
  char '='
  space
  let value ← integer
  if key = "capacity" then return value else fail

/-- A line, and what it assigns to the capacity. -/
def line : Parser (Option Int) := do
  space
  let value? ← optional assignment
  space
  let _ ← optional comment
  return value?

/-- All lines of a text, and what they assign to the capacity.  A byte order mark may stand
before the first of them. -/
def assignments : Parser (List Int) := do
  let _ ← optional (char '\uFEFF')
  let first ← line
  let others ← many do
    newline
    line
  endOfInput
  return (first :: others).filterMap id

/-- The settings that a text asks for; a key that it does not assign has its default. -/
def read (text : String) : Except SettingsError Settings :=
  match assignments.readFrom text.toList with
  | none => .error .malformed
  | some ([], _) => .ok {}
  | some ([value], _) =>
    if value < 0 then .error .negative
    else if value.toNat < UInt64.size then .ok ⟨value.toNat⟩
    else .error .tooLarge
  | some (_ :: _ :: _, _) => .error .repeatedKey

end InteractionGraph.Settings
