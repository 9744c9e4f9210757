import InteractionGraph.Constructor.Table
import InteractionGraph.Grammar.Lexeme
import InteractionGraph.Tree.Basic

/-!
# The text of a term

| Term            | Text                                          |
|-----------------|-----------------------------------------------|
| erasure         | `*`                                           |
| lambda          | `λx body`                                     |
| application     | `(f a b ...)`, with at least one argument     |
| operator        | `(+ a b)`, tried before an application        |
| superposition   | `&L{a b}`, with a decimal label `L`           |
| duplication     | `!&L{x y} = value body`                       |
| reference       | `@name`                                       |
| constructor     | `#Name{fields ...}`                           |
| match           | `~scrutinee{#A: body #B: body #_: body}`      |
| integer         | a name that is made of digits only            |
| variable        | any other name                                |

Each rule takes the parser `room` of what may stand between tokens, and those for composed
terms take the parser `inner` of their parts.  `termUpTo` ties the knot: its fuel counts how
deep terms may still nest.  A term is longer than each of its parts, so the length of the text
is fuel enough, and `term` takes that much.
-/

namespace InteractionGraph.Grammar

open Parse Parser Text

/-! ## Names of constructors -/

/-- The id that a written name stands for, or its rejection. -/
def resolveName (table : ConstructorTable) (letters : List Char) : Except Rejection UInt32 :=
  let name := String.ofList letters
  match table.resolve name with
  | some id => .ok id
  | none => .error (.unknownConstructor name)

/-- The id that a name stands for at the head of an arm, where `_` stands for every constructor
without an arm of its own. -/
def resolveArmName (table : ConstructorTable) (letters : List Char) :
    Except Rejection UInt32 :=
  if letters = ['_'] then .ok Tree.wildcard else resolveName table letters

/-- The name of a constructor, which may be empty, as it was written. -/
def constructorName : Parser (List Char) :=
  named .constructorName (many (satisfy isNameChar))

/-- The name of a constructor as the id that it stands for. -/
def constructorId (table : ConstructorTable) : Parser UInt32 :=
  verify constructorName (resolveName table)

/-- The name at the head of an arm as the id that it stands for. -/
def armId (table : ConstructorTable) : Parser UInt32 :=
  verify constructorName (resolveArmName table)

/-! ## The forms of a term -/

section Forms

variable (room : Parser Unit) (inner : Parser Tree)

/-- An erasure. -/
def erasure : Parser Tree := named .erasure do
  char '*'
  return .era

/-- A lambda. -/
def lambda : Parser Tree := named .lambda do
  char 'λ'
  room
  let variableName ← name
  let body ← inner
  return .lam variableName body

/-- An operator and its two operands. -/
def operatorApplication : Parser Tree := named .operatorApplication do
  char '('
  room
  let operator ← operator
  let left ← inner
  let right ← inner
  room
  char ')'
  return .op2 operator left right

/-- A term and its arguments. -/
def application : Parser Tree := named .application do
  char '('
  let function ← inner
  let arguments ← closedBy room ')' 1 inner
  return function.applyAll arguments

/-- A superposition. -/
def superposition : Parser Tree := named .superposition do
  char '&'
  let label ← label
  room
  char '{'
  let left ← inner
  let right ← inner
  room
  char '}'
  return .sup label left right

/-- A duplication. -/
def duplication : Parser Tree := named .duplication do
  char '!'
  room
  char '&'
  let label ← label
  room
  char '{'
  room
  let first ← name
  room
  let second ← name
  room
  char '}'
  room
  char '='
  let value ← inner
  let body ← inner
  return .dup label first second value body

/-- A reference, whose definition is not known yet. -/
def reference : Parser Tree := named .reference do
  char '@'
  let name ← name
  return .ref name none

/-- A constructor and its fields. -/
def constructor (table : ConstructorTable) : Parser Tree := named .constructor do
  char '#'
  let id ← constructorId table
  room
  char '{'
  let fields ← closedBy room '}' 0 inner
  return .ctr id fields

/-- An arm of a match. -/
def arm (table : ConstructorTable) : Parser (UInt32 × Tree) := named .matchArm do
  room
  char '#'
  let id ← armId table
  room
  char ':'
  let body ← inner
  return (id, body)

/-- A match. -/
def matching (table : ConstructorTable) : Parser Tree := named .matching do
  char '~'
  let scrutinee ← inner
  room
  char '{'
  let arms ← closedBy room '}' 0 (arm room inner table)
  return .matching scrutinee arms

/-- What a name stands for that is a term: an integer if it is made of digits only, else a
variable. -/
def atomOfName (name : String) : Except Rejection Tree :=
  if name.toList.all Char.isDigit then
    match wordOfDigits? name.toList with
    | some value => .ok (.u32 value)
    | none => .error (.integerTooLarge name)
  else
    .ok (.var name)

/-- A variable or an integer. -/
def atom : Parser Tree := verify (named .occurrence name) atomOfName

/-- Any form of a term, with room before it. -/
def form (table : ConstructorTable) : Parser Tree := do
  room
  choice
    [ erasure,
      lambda room inner,
      operatorApplication room inner,
      application room inner,
      superposition room inner,
      duplication room inner,
      reference,
      constructor room inner table,
      matching room inner table,
      atom ]

end Forms

/-! ## Terms -/

/-- A term whose parts are nested less than `fuel` deep, with room before it. -/
def termUpTo (room : Parser Unit) (table : ConstructorTable) : Nat → Parser Tree
  | 0 => fail
  | fuel + 1 => form room (termUpTo room table fuel) table

/-- A term, with `room` before it and between its tokens. -/
def termWith (room : Parser Unit) (table : ConstructorTable) : Parser Tree := fun cursor =>
  termUpTo room table (cursor.rest.length + 1) cursor

/-- A term as texts are read. -/
def term (table : ConstructorTable) : Parser Tree := termWith blank table

end InteractionGraph.Grammar
