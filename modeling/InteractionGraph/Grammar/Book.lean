import InteractionGraph.Grammar.Term

/-!
# The text of a book

A book is a run of data blocks and then a run of definitions:

```text
data List { #Nil{} #Cons{head tail} }
@main = (@len #Cons{1 #Nil{}})
```
-/

namespace InteractionGraph.Grammar

open Parse Parser

/-! ## Data blocks -/

section Rules

variable (room : Parser Unit)

/-- The name of a field. -/
def field : Parser String := do
  room
  name

/-- The declaration of a constructor. -/
def constructorDeclaration : Parser ConstructorDeclaration := named .constructorDeclaration do
  room
  char '#'
  let name ← name
  room
  char '{'
  let fields ← closedBy room '}' 0 (field room)
  return ⟨name, fields⟩

/-- A data block, with `room` before it and between its tokens. -/
def dataBlockWith : Parser DataBlock := named .dataDeclaration do
  room
  chars ['d', 'a', 't', 'a']
  room
  let name ← name
  room
  char '{'
  let constructors ← closedBy room '}' 0 (constructorDeclaration room)
  return ⟨name, constructors⟩

/-! ## Definitions -/

/-- A definition: its name and its term. -/
def definitionWith (table : ConstructorTable) : Parser (String × Tree) := named .definition do
  room
  char '@'
  let name ← name
  room
  char '='
  let body ← termWith room table
  return (name, body)

/-! ## Whole texts -/

/-- A text that is a term, with `room` around it, and nothing else. -/
def termTextWith (table : ConstructorTable) : Parser Tree := do
  let tree ← termWith room table
  room
  endOfInput
  return tree

/-- A text that is a book, with `room` around it, and nothing else. -/
def bookTextWith (table : ConstructorTable) :
    Parser (List DataBlock × List (String × Tree)) := do
  let blocks ← many (dataBlockWith room)
  let definitions ← many (definitionWith room table)
  room
  endOfInput
  return (blocks, definitions)

end Rules

/-! ## The rules as texts are read -/

/-- A data block. -/
def dataBlock : Parser DataBlock := dataBlockWith blank

/-- A definition. -/
def definition (table : ConstructorTable) : Parser (String × Tree) := definitionWith blank table

/-- A text that is a term and nothing else. -/
def termText (table : ConstructorTable) : Parser Tree := termTextWith blank table

/-- A text that is a book and nothing else. -/
def bookText (table : ConstructorTable) : Parser (List DataBlock × List (String × Tree)) :=
  bookTextWith blank table

end InteractionGraph.Grammar
