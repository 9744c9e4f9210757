import InteractionGraph.Report.Basic
import InteractionGraph.Text.Line

/-!
# Excerpts

The excerpt of a report quotes the line it is about, with the span marked and the list of
what was expected attached to it.  For the text `@f = * x` of a book it reads, but for the
blanks behind the mark:

```text
Error: unexpected "x"
   ╭─[ <input>:1:8 ]
   │
 1 │ @f = * x
   │        ┬
   │        ╰── expected '@', end of input
───╯
```

If the list is empty, the span is labelled `unexpected input here`.  Of a span that runs over
several lines the first and the last are quoted, with a bracket on the left of them.

`Excerpt.ofReport` does the measuring, in characters; the rest is drawing.
-/

namespace InteractionGraph

open Text

/-! ## Measures -/

/-- The measures of an excerpt: the span in characters and its first and last line. -/
structure Excerpt where
  start : Nat
  stop : Nat
  first : SourceLine
  last : SourceLine
  deriving DecidableEq

namespace Excerpt

/-- The measures of the excerpt of a report. -/
def ofReport (report : Report) : Excerpt :=
  let indexOf (offset : Nat) : Nat :=
    match splitAt? offset report.text with
    | some (before, _) => before.length
    | none => report.text.length
  let start := indexOf report.span.start
  let stop := indexOf report.span.stop
  ⟨start, stop, .ofIndex report.text start, .ofIndex report.text (max (stop - 1) start)⟩

/-! ## Drawing -/

/-- The number of digits of the greatest line number. -/
def numberWidth (excerpt : Excerpt) : Nat := (Nat.toDigits 10 excerpt.last.number).length

/-- The left margin of a line without a number. -/
def margin (excerpt : Excerpt) : List Char := List.replicate (excerpt.numberWidth + 2) ' '

/-- The left margin of a line with its number. -/
def numbered (excerpt : Excerpt) (number : Nat) : List Char :=
  let digits := Nat.toDigits 10 number
  ' ' :: List.replicate (excerpt.numberWidth - digits.length) ' ' ++ digits ++ [' ']

/-- One sign at the beginning of some columns and another in the rest of them. -/
def fill (width : Nat) (sign rest : Char) : List Char :=
  match width with
  | 0 => []
  | width + 1 => sign :: List.replicate width rest

/-- The middle of the span, where its label hangs, as an index in the first line. -/
def middle (excerpt : Excerpt) : Nat :=
  (excerpt.start + excerpt.stop) / 2 - excerpt.first.start

/-- The number of characters that the marks run over. -/
def reach (excerpt : Excerpt) : Nat := excerpt.stop - excerpt.last.start + 2

/-- The line below the text of the span, which underlines it. -/
def marks (excerpt : Excerpt) : List Char :=
  let start := excerpt.start - excerpt.first.start
  let stop := excerpt.stop - excerpt.first.start
  ((excerpt.first.widths excerpt.reach).zipIdx.map fun (width, index) =>
    let inside := start ≤ index ∧ index < stop
    let rest := if inside then '─' else ' '
    let sign := if index = excerpt.middle then if inside then '┬' else '│' else rest
    fill width sign rest).flatten

/-- The line that leads from the span to its label. -/
def arrow (excerpt : Excerpt) : List Char :=
  ((excerpt.first.widths excerpt.reach).zipIdx.map fun (width, index) =>
    if index < excerpt.middle then fill width ' ' ' '
    else if index = excerpt.middle then fill width '╰' '─'
    else fill width '─' '─').flatten

/-- The lines of an excerpt whose span lies in one line. -/
def singleLine (excerpt : Excerpt) (note : List Char) : List (List Char) :=
  let margin := excerpt.margin
  [ excerpt.numbered excerpt.first.number ++ ['│', ' '] ++ excerpt.first.drawn,
    margin ++ ['│', ' '] ++ excerpt.marks,
    margin ++ ['│', ' '] ++ excerpt.arrow ++ [' '] ++ note ]

/-- The lines of an excerpt whose span runs over several lines. -/
def severalLines (excerpt : Excerpt) (note : List Char) : List (List Char) :=
  let margin := excerpt.margin
  let width := (excerpt.last.widths (excerpt.last.body.length + 2)).foldl (· + ·) 0
  let gap :=
    if excerpt.last.number > excerpt.first.number + 1 then
      [margin ++ ['┆', ' ', '┆', ' ', ' ', ' ']]
    else []
  [excerpt.numbered excerpt.first.number ++ ['│', ' ', '╭', '─', '▶', ' '] ++
    excerpt.first.drawn] ++
  gap ++
  [ excerpt.numbered excerpt.last.number ++ ['│', ' ', '├', '─', '▶', ' '] ++
      excerpt.last.drawn,
    margin ++ ['│', ' ', '│', ' ', ' ', ' '] ++ List.replicate width ' ',
    margin ++ ['│', ' ', '╰', '─', '─', '─'] ++ List.replicate width '─' ++ [' '] ++ note ]

end Excerpt

namespace Report

/-- The label that hangs on the span of an excerpt. -/
def note (report : Report) : String :=
  if report.expected.isEmpty then "unexpected input here"
  else "expected " ++ String.intercalate ", " report.expected

/-- The excerpt of a report. -/
def excerpt (report : Report) : String :=
  let excerpt := Excerpt.ofReport report
  let note := report.note.toList
  let place := toString excerpt.first.number ++ ":" ++
    toString (excerpt.start - excerpt.first.start + 1)
  let body :=
    if excerpt.first.number = excerpt.last.number then excerpt.singleLine note
    else excerpt.severalLines note
  let rows :=
    [ ("Error: " ++ report.reason).toList,
      excerpt.margin ++ ("╭─[ <input>:" ++ place ++ " ]").toList,
      excerpt.margin ++ ['│'] ] ++
    body ++
    [ List.replicate (excerpt.numberWidth + 2) '─' ++ ['╯'] ]
  String.ofList (rows.map fun row => row ++ ['\n']).flatten

end Report

end InteractionGraph
