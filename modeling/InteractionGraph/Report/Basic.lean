import InteractionGraph.Parse.Alternative
import InteractionGraph.Text.Quoted

/-!
# Reports of unreadable text

A `Report` tells a reader where a text could not be read, what stands there and what would
have been accepted instead.  It is made from the farthest alternative of the failed attempt,
by `Report.ofAlternative`, and names a position as well as a span.

Room between tokens is accepted nearly everywhere, so white space and comments are not listed
by name.  What a comment goes on with is listed like anything else: the second slash behind a
single one, and one more character at the end of a text of which the last line has a comment.

The span of a rejection is that of the token for a constructor and for a label.  For an
integer it is that of the first digit: other forms of a term were tried at the same place
before, and `Alternative.farther` keeps the span of the first.
-/

namespace InteractionGraph

open Parse Text

/-- Why a text could not be read. -/
inductive Report.Cause where
  /-- Something stands where it is not accepted, or the text ends too early. -/
  | unexpected
  /-- A token was turned down. -/
  | rejected (rejection : Rejection)
  /-- No attempt left a trace. -/
  | unrecorded
  deriving DecidableEq

/-- Everything there is to say about a text that could not be read. -/
structure Report where
  /-- The text that was to be read. -/
  text : List Char
  /-- What stands in the way. -/
  span : Span
  cause : Report.Cause
  /-- What would have been accepted, in the order of the code points and without repeats. -/
  expected : List String
  /-- The character at the start of the span, or after a rejection the text of the span;
  nothing at the end of the text. -/
  found? : Option String
  deriving DecidableEq

namespace Report

/-- The texts of what would have been accepted, in order and without repeats. -/
def listing (expectations : List Expectation) : List String :=
  ((expectations.filter fun expectation => !expectation.isLayout).map Expectation.text).eraseDups
    |>.mergeSort fun first second => first ≤ second

/-- The character at an offset as a text of its own. -/
def foundAt? (text : List Char) (offset : Nat) : Option String :=
  (charAt? offset text).map String.singleton

/-- The report of an attempt that came to nothing. -/
def ofAlternative (text : List Char) (alternative : Alternative) : Report :=
  let span := alternative.span
  match alternative.reason with
  | .expected expectations =>
    ⟨text, span, .unexpected, listing expectations, foundAt? text span.start⟩
  | .rejected rejection =>
    let token? := (slice? span.start span.stop text).filter fun token => !token.isEmpty
    ⟨text, span, .rejected rejection, [],
      (token?.map String.ofList).or (foundAt? text span.start)⟩

/-- The report of a failed attempt to read a text. -/
def ofFailure (text : List Char) : Option Alternative → Report
  | some alternative => ofAlternative text alternative
  | none => ⟨text, ⟨byteLength text, byteLength text⟩, .unrecorded, [], none⟩

/-- The line and column where the text could not be read. -/
def position (report : Report) : Position := .ofOffset report.text report.span.start

/-- The reason of a report in words. -/
def reason (report : Report) : String :=
  match report.cause with
  | .rejected rejection => rejection.message
  | .unrecorded => "parse failed"
  | .unexpected =>
    match report.found?.bind fun found => found.toList.head? with
    | some c => "unexpected " ++ quoted c
    | none => "unexpected end of input"

/-- The position and the reason of a report in words. -/
def message (report : Report) : String :=
  toString report.position.line ++ ":" ++ toString report.position.column ++ ": " ++
    report.reason

end Report

end InteractionGraph
