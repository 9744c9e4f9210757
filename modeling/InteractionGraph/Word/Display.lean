import InteractionGraph.Text.Hexadecimal
import InteractionGraph.Word.Basic

/-!
# The text of a word

A word whose low byte is the code of a tag is printed as `TAG:0xLABEL:0xPAYLOAD`, with
unpadded numerals.  The zero word is `VOID`.  Any other word has no fields worth naming and
is printed as `RAW:0x` with all sixteen digits.
-/

namespace InteractionGraph.Word

open Text

/-- All sixteen hexadecimal digits of a word. -/
def rawText (word : Word) : String :=
  "0x" ++ String.ofList (paddedHexadecimal 16 word.bits.toNat)

/-- The text of a word in a listing of cells. -/
def text (word : Word) : String :=
  match word.tag? with
  | some tag =>
    tag.name ++ ":0x" ++ String.ofList (hexadecimal word.label) ++
      ":0x" ++ String.ofList (hexadecimal word.payload)
  | none => if word = void then "VOID" else "RAW:" ++ word.rawText

/-- The text of a word where the kind of value has to be told as well. -/
def describe (word : Word) : String := "Term(" ++ word.text ++ ")"

end InteractionGraph.Word
