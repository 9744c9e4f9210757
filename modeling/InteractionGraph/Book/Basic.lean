import InteractionGraph.Reading
import InteractionGraph.Tree.References

/-!
# Books

A `Book` is a list of definitions whose references are linked: every reference to a name
carries the id of the definition of that name, which is its place in the book.  A definition
may refer to one that comes later.

`Book.assemble` numbers the definitions, which have to have different names, and then links
the references of each in turn.  All names are compared before any reference is looked at.
-/

namespace InteractionGraph

/-- Why definitions do not make up a book. -/
inductive BookError where
  /-- A definition refers to a name that has none. -/
  | undefinedReference (name definition : String)
  /-- Two definitions have the same name. -/
  | duplicateDefinition (name : String)
  deriving DecidableEq

/-- The text of an error of assembly. -/
def BookError.message : BookError → String
  | undefinedReference name definition =>
    "Definition `@" ++ definition ++ "` refers to `@" ++ name ++
      "`, which is not defined in the book."
  | duplicateDefinition name => "`@" ++ name ++ "` is defined more than once."

/-- Definitions with linked references, each at the place that is its id. -/
structure Book where
  /-- The name and the term of every definition. -/
  definitions : Array (String × Tree)
  /-- The id of every name. -/
  ids : Std.TreeMap String UInt32
  constructors : ConstructorTable

namespace Book

/-- The book without definitions. -/
def empty : Book := ⟨#[], ∅, .empty⟩

/-! ## Looking up -/

/-- The number of definitions. -/
def size (book : Book) : Nat := book.definitions.size

/-- Whether there is no definition. -/
def isEmpty (book : Book) : Bool := book.definitions.isEmpty

/-- The term of the definition of a given id. -/
def tree? (book : Book) (id : UInt32) : Option Tree :=
  book.definitions[id.toNat]?.map Prod.snd

/-- The name of the definition of a given id. -/
def name? (book : Book) (id : UInt32) : Option String :=
  book.definitions[id.toNat]?.map Prod.fst

/-- The id of the definition of a given name. -/
def id? (book : Book) (name : String) : Option UInt32 := book.ids[name]?

/-- Every definition: its id, its name and its term, in the order of the ids. -/
def toList (book : Book) : List (UInt32 × String × Tree) :=
  book.definitions.toList.zipIdx.map fun (definition, place) => (UInt32.ofNat place, definition)

/-! ## Assembling -/

/-- Gives ids to the names of definitions, the first of them having the id `next`. -/
def number (ids : Std.TreeMap String UInt32) (next : Nat) :
    List (String × Tree) → Except BookError (Std.TreeMap String UInt32)
  | [] => .ok ids
  | (name, _) :: definitions =>
    if ids.contains name then .error (.duplicateDefinition name)
    else number (ids.insert name (UInt32.ofNat next)) (next + 1) definitions

/-- Puts the id of its definition at a reference of the definition `owner`. -/
def linkReference (ids : Std.TreeMap String UInt32) (owner : String) :
    ReferenceVisitor BookError Unit := fun name id? state =>
  match ids[name]? with
  | some id => ⟨some id, none, state⟩
  | none => ⟨id?, some (.undefinedReference name owner), state⟩

/-- Links every reference of a definition. -/
def link (ids : Std.TreeMap String UInt32) (definition : String × Tree) :
    Except BookError (String × Tree) :=
  let visit := definition.2.visitReferences (linkReference ids definition.1) ()
  match visit.failure? with
  | some error => .error error
  | none => .ok (definition.1, visit.outcome)

/-- Numbers definitions and links their references. -/
def assemble (definitions : List (String × Tree)) (constructors : ConstructorTable) :
    Except BookError Book := do
  let ids ← number ∅ 0 definitions
  let linked ← definitions.mapM (link ids)
  return ⟨linked.toArray, ids, constructors⟩

/-- Numbers definitions and links their references, and tells of it. -/
def assembleLogged (definitions : List (String × Tree)) (constructors : ConstructorTable) :
    Logged (Except BookError Book) := do
  let result := assemble definitions constructors
  match result with
  | .ok book => Logged.record (.bookAssembled book.size constructors.size)
  | .error _ => pure ()
  return result

/-! ## Reading -/

/-- Why a text gives no book. -/
inductive ReadError where
  /-- The text could not be read. -/
  | unreadable (report : Report)
  /-- What was read does not make up a book. -/
  | unlinked (error : BookError)

/-- The text of an error of reading. -/
def ReadError.message : ReadError → String
  | unreadable report => "parse error at " ++ report.message
  | unlinked error => error.message

/-- Reads and assembles a book, and tells of both. -/
def readLogged (text : String) : Logged (Except ReadError Book) := do
  match ← BookSource.readLogged text with
  | .error report => return .error (.unreadable report)
  | .ok source =>
    match ← assembleLogged source.definitions source.constructors with
    | .error error => return .error (.unlinked error)
    | .ok book => return .ok book

/-- Reads and assembles a book. -/
def read (text : String) : Except ReadError Book := (readLogged text).value

end Book

end InteractionGraph
