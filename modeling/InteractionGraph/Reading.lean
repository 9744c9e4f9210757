import InteractionGraph.Grammar.Book
import InteractionGraph.Journal

/-!
# Reading texts

The rules of the grammar applied to whole texts: `Tree.read` for a term, `BookSource.read`
for a book.  A text that cannot be read gives a `Report`.

A book is read twice.  Its leading data blocks are taken first, whatever follows them, and
make up the table that the names of constructors are looked up in; then the whole text is
read with that table.  So a term may use a constructor wherever it is declared.
-/

namespace InteractionGraph

open Parse Grammar

/-- What a parser makes of a text, or the report of its failure. -/
def Parse.Parser.read {α : Type} (p : Parser α) (text : List Char) : Except Report α :=
  let reply := p (.ofText text)
  match reply.result? with
  | some (value, _) => .ok value
  | none => .error (.ofFailure text reply.alternative?)

namespace Tree

/-- Reads a term, with the constructors of a table. -/
def read (table : ConstructorTable) (text : String) : Except Report Tree :=
  (termText table).read text.toList

/-- Reads a term in which constructors go by numbers.  `Tree.failure` takes the place of a
term that cannot be read, and the report goes to the journal. -/
def readOrFailureLogged (text : String) : Logged Tree := do
  match read .empty text with
  | .ok tree => return tree
  | .error report =>
    Logged.record (.unreadable report)
    return failure

/-- Reads a term in which constructors go by numbers, or gives `Tree.failure`. -/
def readOrFailure (text : String) : Tree := (readOrFailureLogged text).value

end Tree

/-- A book as it was read: its data blocks, its definitions with references that are not linked
yet, and the ids of its constructors. -/
structure BookSource where
  blocks : List DataBlock
  definitions : List (String × Tree)
  constructors : ConstructorTable

namespace BookSource

/-- The data blocks that a text begins with. -/
def leadingBlocks (text : List Char) : List DataBlock :=
  match (Parser.many dataBlock (.ofText text)).result? with
  | some (blocks, _) => blocks
  | none => []

/-- Reads a book, and tells of its data blocks even if it cannot be read to the end. -/
def readLogged (text : String) : Logged (Except Report BookSource) := do
  let characters := text.toList
  let table ← ConstructorTable.ofBlocksLogged (leadingBlocks characters)
  match (bookText table).read characters with
  | .error report => return .error report
  | .ok (blocks, definitions) =>
    Logged.record (.bookRead blocks.length table.size definitions.length)
    return .ok ⟨blocks, definitions, table⟩

/-- Reads a book. -/
def read (text : String) : Except Report BookSource := (readLogged text).value

end BookSource

end InteractionGraph
