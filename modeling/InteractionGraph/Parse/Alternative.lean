import InteractionGraph.Text.Position

/-!
# What a reader would have accepted

While a text is read, every attempt that comes to nothing leaves an `Alternative`: the span
it stopped at and the reason, either a list of things that would have been accepted there or
the rejection of something that was read and then found to be wrong.

Of all alternatives only the one that starts farthest into the text is worth a report.
`farther` picks it, and joins two that start at the same offset: a rejection wins over any
list, the earlier of two rejections wins, and two lists are united.  The span is that of the
earlier one in either case.  `farther` is associative and `none` is its unit, so what a
composed reader leaves is the `farther` of what its parts leave, in whatever way they are
grouped.
-/

namespace InteractionGraph.Parse

/-- A stretch of a text, from one byte offset up to another. -/
structure Span where
  start : Nat
  stop : Nat
  deriving DecidableEq

/-- A part of the grammar that reports call by a name of its own. -/
inductive Construct where
  | erasure
  | lambda
  | operatorApplication
  | application
  | superposition
  | duplication
  | reference
  | constructor
  | matchArm
  | matching
  | occurrence
  | operator
  | constructorName
  | label
  | digit
  | name
  | whitespace
  | comment
  | constructorDeclaration
  | dataDeclaration
  | definition
  deriving DecidableEq

namespace Construct

/-- The name of a construct in a report. -/
def title : Construct → String
  | erasure => "erasure"
  | lambda => "lambda"
  | operatorApplication => "operator application"
  | application => "application"
  | superposition => "superposition"
  | duplication => "duplication"
  | reference => "reference"
  | constructor => "constructor"
  | matchArm => "match arm"
  | matching => "match"
  | occurrence => "variable"
  | operator => "operator"
  | constructorName => "constructor name"
  | label => "label"
  | digit => "digit"
  | name => "name"
  | whitespace => "whitespace"
  | comment => "comment"
  | constructorDeclaration => "constructor declaration"
  | dataDeclaration => "data declaration"
  | definition => "definition"

/-- Whether a construct only fills the room between tokens.  A report never lists it, since
it is accepted nearly everywhere. -/
def isLayout : Construct → Bool
  | whitespace | comment => true
  | _ => false

end Construct

/-- Something that would have been accepted. -/
inductive Expectation where
  /-- This very character. -/
  | character (c : Char)
  /-- A construct of the grammar. -/
  | construct (what : Construct)
  /-- One more character, whichever it is. -/
  | anything
  /-- Any character but the one that is there. -/
  | somethingElse
  /-- The end of the text. -/
  | endOfInput
  deriving DecidableEq

namespace Expectation

/-- The text of an expectation in a report. -/
def text : Expectation → String
  | character c => "'" ++ String.singleton c ++ "'"
  | construct what => what.title
  | anything => "any"
  | somethingElse => "something else"
  | endOfInput => "end of input"

/-- Whether an expectation is no more than room between tokens. -/
def isLayout : Expectation → Bool
  | construct what => what.isLayout
  | _ => false

end Expectation

/-- Why a well-formed token was turned down. -/
inductive Rejection where
  /-- No data block declares this constructor, and it is no number of 32 bits. -/
  | unknownConstructor (name : String)
  /-- The integer is too large for an inline value. -/
  | integerTooLarge (digits : String)
  /-- The label is too large. -/
  | labelTooLarge (digits : String)
  deriving DecidableEq

namespace Rejection

/-- The text of a rejection. -/
def message : Rejection → String
  | unknownConstructor name => "unknown constructor `#" ++ name ++ "`"
  | integerTooLarge digits => "integer literal `" ++ digits ++ "` does not fit in 32 bits"
  | labelTooLarge digits => "label `" ++ digits ++ "` does not fit in 32 bits"

/-- The token that was turned down, as it was written. -/
def token : Rejection → String
  | unknownConstructor name => name
  | integerTooLarge digits => digits
  | labelTooLarge digits => digits

end Rejection

/-- Why an attempt came to nothing. -/
inductive Reason where
  /-- Any of these would have been accepted, each listed once. -/
  | expected (expectations : List Expectation)
  /-- A token was read and turned down. -/
  | rejected (rejection : Rejection)
  deriving DecidableEq

/-- An attempt that came to nothing: where it stopped and why. -/
structure Alternative where
  span : Span
  reason : Reason
  deriving DecidableEq

/-- Two lists of expectations in one, without repeating what the first has. -/
def unite (first second : List Expectation) : List Expectation :=
  first ++ second.filter fun expectation => !first.contains expectation

namespace Reason

/-- The joint reason of two attempts that stopped at one offset. -/
def join : Reason → Reason → Reason
  | rejected rejection, _ => rejected rejection
  | expected _, rejected rejection => rejected rejection
  | expected first, expected second => expected (unite first second)

end Reason

/-- Of two attempts, the one that came farther; both in one if they stopped at the same
offset. -/
def Alternative.farther (first second : Alternative) : Alternative :=
  if first.span.start < second.span.start then second
  else if second.span.start < first.span.start then first
  else ⟨first.span, first.reason.join second.reason⟩

/-- What is left of two runs of attempts, each of which may have left nothing. -/
def farther : Option Alternative → Option Alternative → Option Alternative
  | none, second => second
  | first, none => first
  | some first, some second => some (first.farther second)

/-! ## `farther` makes a monoid -/

@[simp]
theorem none_farther (second : Option Alternative) : farther none second = second := rfl

@[simp]
theorem farther_none (first : Option Alternative) : farther first none = first := by
  cases first <;> rfl

theorem unite_assoc (first second third : List Expectation) :
    unite (unite first second) third = unite first (unite second third) := by
  simp only [unite, List.filter_append, List.append_assoc, List.filter_filter]
  congr 2
  refine List.filter_congr fun expectation _ => ?_
  by_cases h : expectation ∈ first <;> simp [List.contains_eq_mem, h]

theorem Reason.join_assoc (first second third : Reason) :
    (first.join second).join third = first.join (second.join third) := by
  cases first <;> cases second <;> cases third <;> simp [Reason.join, unite_assoc]

theorem Alternative.farther_assoc (first second third : Alternative) :
    (first.farther second).farther third = first.farther (second.farther third) := by
  rcases Nat.lt_trichotomy first.span.start second.span.start with h | h | h <;>
    rcases Nat.lt_trichotomy second.span.start third.span.start with h' | h' | h' <;>
    grind [Alternative.farther, Reason.join_assoc]

theorem farther_assoc (first second third : Option Alternative) :
    farther (farther first second) third = farther first (farther second third) := by
  cases first <;> cases second <;> cases third <;> simp [farther, Alternative.farther_assoc]

end InteractionGraph.Parse
