import InteractionGraph.Constructor.Block
import InteractionGraph.Journal
import InteractionGraph.Text.Decimal
import Std.Data.TreeMap.Basic

/-!
# Constructor ids

A `ConstructorTable` gives a number to every declared constructor.  Data blocks are merged
into it one by one: a new name gets the number of names known before the block plus its
position in the block.  A name that has an id keeps it, and a name that one block declares
several times has the position of the last of these.

Ids can meet: a name that is passed over, or a position that is skipped, leaves the ids of
the next block overlapping.  The table then goes by the later name when it is asked for the
name of an id, and says so in the journal.
-/

namespace InteractionGraph

open Text

/-- The ids of the declared constructors, and the name that goes with each id. -/
structure ConstructorTable where
  ids : Std.TreeMap String UInt32
  names : Std.TreeMap UInt32 String

namespace ConstructorTable

/-- The table of no constructors. -/
def empty : ConstructorTable := ⟨∅, ∅⟩

instance : Inhabited ConstructorTable := ⟨empty⟩

/-- The number of declared names. -/
def size (table : ConstructorTable) : Nat := table.ids.size

/-- Whether no constructor is declared. -/
def isEmpty (table : ConstructorTable) : Bool := table.ids.isEmpty

/-- The id of a declared constructor. -/
def id? (table : ConstructorTable) (name : String) : Option UInt32 := table.ids[name]?

/-- The name of the constructor of a given id. -/
def name? (table : ConstructorTable) (id : UInt32) : Option String := table.names[id]?

/-- Each id in use with the name that goes with it, in the order of the ids. -/
def toList (table : ConstructorTable) : List (UInt32 × String) := table.names.toList

/-- The id that a written constructor name stands for: that of the declared constructor, else
the number that is written, else `0` if nothing is written. -/
def resolve (table : ConstructorTable) (name : String) : Option UInt32 :=
  match table.id? name with
  | some id => some id
  | none => if name.isEmpty then some 0 else wordOfNumeral? name.toList

/-! ## Merging data blocks -/

/-- The ids that a block proposes for its names, the first of its constructors having the id
`base`. -/
def proposals (base : Nat) (block : DataBlock) : Std.TreeMap String UInt32 :=
  block.constructors.zipIdx.foldl
    (fun proposed (declaration, place) =>
      proposed.insert declaration.name (UInt32.ofNat (base + place))) ∅

/-- Declares a constructor of the given block, unless its name is declared already. -/
def declare (block : String) (table : ConstructorTable) (name : String) (id : UInt32) :
    Logged ConstructorTable := do
  match table.ids[name]? with
  | some known =>
    Logged.record (.constructorKept block name known)
    return table
  | none =>
    match table.names[id]? with
    | some former => Logged.record (.idShared former name id)
    | none => pure ()
    return ⟨table.ids.insert name id, table.names.insert id name⟩

/-- Merges a data block, in the order of the names, and tells of it. -/
def mergeLogged (table : ConstructorTable) (block : DataBlock) : Logged ConstructorTable := do
  let proposed := (proposals table.size block).toList
  let merged ← proposed.foldlM (fun table (name, id) => declare block.name table name id) table
  Logged.record (.blockMerged block.name merged.size)
  return merged

/-- Merges a data block. -/
def merge (table : ConstructorTable) (block : DataBlock) : ConstructorTable :=
  (table.mergeLogged block).value

/-- The table of the given blocks, merged in their order, and what there is to tell of it. -/
def ofBlocksLogged (blocks : List DataBlock) : Logged ConstructorTable :=
  blocks.foldlM mergeLogged empty

/-- The table of the given blocks, merged in their order. -/
def ofBlocks (blocks : List DataBlock) : ConstructorTable := blocks.foldl merge empty

theorem value_ofBlocksLogged (blocks : List DataBlock) :
    (ofBlocksLogged blocks).value = ofBlocks blocks := by
  suffices h : ∀ table : ConstructorTable,
      (blocks.foldlM mergeLogged table).value = blocks.foldl merge table from h empty
  induction blocks with
  | nil => exact fun _ => rfl
  | cons block blocks ih => exact fun table => ih (table.merge block)

end ConstructorTable

end InteractionGraph
