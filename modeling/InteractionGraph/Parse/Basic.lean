import InteractionGraph.Parse.Alternative

/-!
# Parsers

A `Parser` reads from a `Cursor`, the rest of a text and how many bytes came before it.  Its
`Reply` has two parts: what it read and where it stopped, if it succeeds, and the farthest
alternative that it left, whether it succeeds or not.  An alternative of a parser that
succeeds still counts: what stops the text further on is often the end of something that
could have gone on.

Because alternatives are joined by an associative operation, a parser is a plain function of
the cursor and carries no state.  In particular what it reads cannot hang on what was
expected before.

A parser that fails has no cursor to go on from, so to try another is to start it at the
cursor that the first one had: there is no input to put back.
-/

namespace InteractionGraph.Parse

/-- A place in a text: the bytes before it and the characters from it on. -/
structure Cursor where
  offset : Nat
  rest : List Char
  deriving DecidableEq

namespace Cursor

/-- The beginning of a text. -/
def ofText (text : List Char) : Cursor := ⟨0, text⟩

/-- The cursor behind a character of the given size. -/
def advance (cursor : Cursor) (c : Char) (rest : List Char) : Cursor :=
  ⟨cursor.offset + c.utf8Size, rest⟩

/-- The empty span at a cursor. -/
def emptySpan (cursor : Cursor) : Span := ⟨cursor.offset, cursor.offset⟩

/-- The span of the character `c` at a cursor. -/
def spanOf (cursor : Cursor) (c : Char) : Span := ⟨cursor.offset, cursor.offset + c.utf8Size⟩

/-- The span of the character at a cursor, or the empty span at the end. -/
def nextSpan (cursor : Cursor) : Span :=
  match cursor.rest with
  | [] => cursor.emptySpan
  | c :: _ => cursor.spanOf c

end Cursor

/-- What a parser answers. -/
structure Reply (α : Type) where
  /-- What was read and the cursor behind it. -/
  result? : Option (α × Cursor)
  /-- The farthest attempt that came to nothing. -/
  alternative? : Option Alternative

/-- A parser of values of type `α`. -/
def Parser (α : Type) : Type := Cursor → Reply α

namespace Parser

variable {α β : Type}

/-- What a parser reads at the beginning of a text and the cursor behind it. -/
def readFrom (p : Parser α) (text : List Char) : Option (α × Cursor) :=
  (p (.ofText text)).result?

/-! ## Sequences -/

/-- Reads nothing. -/
protected def pure (value : α) : Parser α := fun cursor => ⟨some (value, cursor), none⟩

/-- Goes on with another parser behind the first. -/
protected def bind (p : Parser α) (next : α → Parser β) : Parser β := fun cursor =>
  let first := p cursor
  match first.result? with
  | none => ⟨none, first.alternative?⟩
  | some (value, behind) =>
    let second := next value behind
    ⟨second.result?, farther first.alternative? second.alternative?⟩

instance : Monad Parser where
  pure := Parser.pure
  bind := Parser.bind

@[simp]
theorem pure_apply (value : α) (cursor : Cursor) :
    (pure value : Parser α) cursor = ⟨some (value, cursor), none⟩ := rfl

/-- Where the first parser fails, so does the sequence. -/
theorem bind_apply_of_none {p : Parser α} {next : α → Parser β} {cursor : Cursor}
    (h : (p cursor).result? = none) : (p >>= next) cursor = ⟨none, (p cursor).alternative?⟩ := by
  change Parser.bind p next cursor = _
  simp only [Parser.bind]
  rw [h]

/-- Where the first parser succeeds, the second goes on from where it stopped. -/
theorem bind_apply_of_some {p : Parser α} {next : α → Parser β} {cursor behind : Cursor}
    {value : α} (h : (p cursor).result? = some (value, behind)) :
    (p >>= next) cursor =
      ⟨(next value behind).result?,
        farther (p cursor).alternative? (next value behind).alternative?⟩ := by
  change Parser.bind p next cursor = _
  simp only [Parser.bind]
  rw [h]

private theorem bind_pure_self (p : Parser α) : (p >>= pure) = p := by
  funext cursor
  cases h : (p cursor).result? with
  | none =>
    rw [bind_apply_of_none h, ← h]
  | some reading =>
    rw [bind_apply_of_some h, pure_apply, farther_none, ← h]

private theorem bind_assoc_self {γ : Type} (p : Parser α) (next : α → Parser β)
    (further : β → Parser γ) :
    (p >>= next >>= further) = p >>= fun value => next value >>= further := by
  funext cursor
  cases h : (p cursor).result? with
  | none =>
    rw [bind_apply_of_none h, bind_apply_of_none (by rw [bind_apply_of_none h]),
      bind_apply_of_none h]
  | some reading =>
    obtain ⟨value, behind⟩ := reading
    rw [bind_apply_of_some h]
    cases h' : (next value behind).result? with
    | none =>
      rw [bind_apply_of_none h', bind_apply_of_none (by rw [bind_apply_of_some h, h']),
        bind_apply_of_some h]
    | some reading =>
      obtain ⟨value', behind'⟩ := reading
      rw [bind_apply_of_some h', bind_apply_of_some (by rw [bind_apply_of_some h, h']),
        bind_apply_of_some h, farther_assoc]

/-- Sequences can be grouped in any way: what they read and what they leave is the same. -/
instance : LawfulMonad Parser :=
  LawfulMonad.mk' Parser bind_pure_self (fun _ _ => rfl) bind_assoc_self

/-! ## Choices -/

/-- Fails and leaves nothing. -/
def fail : Parser α := fun _ => ⟨none, none⟩

/-- Tries another parser where the first fails. -/
protected def orElse (p : Parser α) (other : Unit → Parser α) : Parser α := fun cursor =>
  let first := p cursor
  match first.result? with
  | some _ => first
  | none =>
    let second := other () cursor
    ⟨second.result?, farther first.alternative? second.alternative?⟩

instance : OrElse (Parser α) := ⟨Parser.orElse⟩

/-- The first of several parsers that succeeds. -/
def choice : List (Parser α) → Parser α
  | [] => fail
  | p :: others => p <|> choice others

/-! ## Single characters -/

/-- A character that is accepted. -/
def satisfy (accepts : Char → Bool) : Parser Char := fun cursor =>
  match cursor.rest with
  | [] => ⟨none, some ⟨cursor.emptySpan, .expected [.anything]⟩⟩
  | c :: rest =>
    if accepts c then ⟨some (c, cursor.advance c rest), none⟩
    else ⟨none, some ⟨cursor.spanOf c, .expected [.somethingElse]⟩⟩

/-- Any character. -/
def anyChar : Parser Char := satisfy fun _ => true

/-- One given character. -/
def char (wanted : Char) : Parser Unit := fun cursor =>
  match cursor.rest with
  | c :: rest =>
    if c = wanted then ⟨some ((), cursor.advance c rest), none⟩
    else ⟨none, some ⟨cursor.spanOf c, .expected [.character wanted]⟩⟩
  | [] => ⟨none, some ⟨cursor.emptySpan, .expected [.character wanted]⟩⟩

/-- Given characters, one behind the other. -/
def chars : List Char → Parser Unit
  | [] => pure ()
  | c :: rest => do char c; chars rest

/-- The end of the text. -/
def endOfInput : Parser Unit := fun cursor =>
  match cursor.rest with
  | [] => ⟨some ((), cursor), none⟩
  | c :: _ => ⟨none, some ⟨cursor.spanOf c, .expected [.endOfInput]⟩⟩

/-! ## Conditions -/

/-- Succeeds without reading where `p` fails.  What `p` leaves does not count. -/
def notFollowedBy (p : Parser α) : Parser Unit := fun cursor =>
  match (p cursor).result? with
  | none => ⟨some ((), cursor), none⟩
  | some (_, behind) =>
    ⟨none, some ⟨⟨cursor.offset, behind.offset⟩, .expected [.somethingElse]⟩⟩

/-- Reads with `p` and goes on with what `check` makes of it.  What `check` turns down is
rejected over all that `p` read, and what `p` leaves does not count then. -/
def verify (p : Parser α) (check : α → Except Rejection β) : Parser β := fun cursor =>
  let reply := p cursor
  match reply.result? with
  | none => ⟨none, reply.alternative?⟩
  | some (value, behind) =>
    match check value with
    | .ok result => ⟨some (result, behind), reply.alternative?⟩
    | .error rejection =>
      ⟨none, some ⟨⟨cursor.offset, behind.offset⟩, .rejected rejection⟩⟩

/-- Reads with `p` and lists `what` in place of all that would have been accepted at the
beginning, and in place of a rejection there.  Alternatives from further on stay. -/
def named (what : Construct) (p : Parser α) : Parser α := fun cursor =>
  let reply := p cursor
  ⟨reply.result?, reply.alternative?.map fun alternative =>
    if alternative.span.start = cursor.offset then
      { alternative with reason := .expected [.construct what] }
    else alternative⟩

/-! ## Repetitions -/

/-- Reads with `p` up to `fuel` times, until it fails. -/
def manyUpTo (p : Parser α) : Nat → Parser (List α)
  | 0 => fun cursor => ⟨some ([], cursor), none⟩
  | fuel + 1 => fun cursor =>
    let first := p cursor
    match first.result? with
    | none => ⟨some ([], cursor), first.alternative?⟩
    | some (value, behind) =>
      let others := manyUpTo p fuel behind
      ⟨others.result?.map fun (values, last) => (value :: values, last),
        farther first.alternative? others.alternative?⟩

/-- Reads with `p` until it fails.  Where `p` never succeeds without reading, the rest of the
text has as many characters as there can be repetitions. -/
def many (p : Parser α) : Parser (List α) := fun cursor =>
  manyUpTo p (cursor.rest.length + 1) cursor

/-- Reads with `p` until it fails, and fails if that comes to fewer than `least` times. -/
def manyAtLeast (least : Nat) (p : Parser α) : Parser (List α) := do
  let values ← many p
  if least ≤ values.length then return values else fail

end Parser

end InteractionGraph.Parse
