import InteractionGraph.Text.Hexadecimal
import InteractionGraph.Text.Printable

/-!
# Quoted characters

A message shows a character between quotation marks.  The mark itself, the backslash and the
usual controls have a short escape, other characters that would not show as themselves are
written by their code point, as in `"\u{200b}"`.
-/

namespace InteractionGraph.Text

/-- A character as it stands inside a quoted text. -/
def escaped (c : Char) : List Char :=
  match c with
  | '\x00' => ['\\', '0']
  | '\t' => ['\\', 't']
  | '\r' => ['\\', 'r']
  | '\n' => ['\\', 'n']
  | '"' => ['\\', '"']
  | '\\' => ['\\', '\\']
  | _ =>
    if isPrintable c then [c]
    else ['\\', 'u', '{'] ++ hexadecimal c.toNat ++ ['}']

/-- A character between quotation marks. -/
def quoted (c : Char) : String := "\"" ++ String.ofList (escaped c) ++ "\""

end InteractionGraph.Text
