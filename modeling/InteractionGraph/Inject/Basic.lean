import InteractionGraph.Heap.Basic
import InteractionGraph.Inject.Scope
import InteractionGraph.Tree.Basic

/-!
# Writing a term into a heap

`Tree.inject` writes a term into a *host* cell that was handed out before, and hands out the
cells of its nodes as it goes:

| Node          | Cells  | In the cells                           | In the host        |
|---------------|--------|----------------------------------------|--------------------|
| lambda        | 2      | binder slot, body                      | `LAM(0, address)`  |
| application   | 2      | function, argument                     | `APP(0, address)`  |
| superposition | 2      | left, right                            | `SUP(label, address)` |
| duplication   | 3      | first slot, second slot, value         | the body           |
| constructor   | n      | the fields                             | `CTR(id, address)` |
| match         | 1 + 2n | scrutinee, then id and body of each arm | `MAT(n, address)` |
| operator      | 2      | left, right                            | `OPX(code, address)` |

An erasure, a reference, an integer and a constructor without fields need no cells.  A binder
slot begins as `Word.sub`.

A use of a variable gets the word of the last binder of its name that came up before it.  If
none did, the cell is left alone until the first one comes up, wherever in the term that is.

An `Injector` is the heap together with the scope.  It is never rolled back: an injection
that fails leaves what it handed out, wrote and noted up to that point.
-/

namespace InteractionGraph

/-- Why a term was not written. -/
inductive InjectError where
  /-- The heap refused. -/
  | heap (error : HeapError)
  /-- A label, a constructor id or a number of arms is too large for the label of a word. -/
  | labelOverflow (tag : Tag) (value : Nat)
  /-- A variable is used and no binder of its name came up. -/
  | unboundVariable (name : String)
  /-- A reference was never linked. -/
  | unresolvedReference (name : String)
  /-- A book has no definition of this id. -/
  | unknownDefinition (id : UInt32)
  /-- A word was to be written whose fields are too large for it. -/
  | unencodable (tag : Tag) (label payload : Nat)
  deriving DecidableEq

/-- The text of an error of injection. -/
def InjectError.message : InjectError → String
  | heap error => error.message
  | labelOverflow tag value =>
    "Value " ++ toString value ++ " does not fit in the label field of a " ++ tag.name ++ " term."
  | unboundVariable name => "Variable `" ++ name ++ "` is used but never bound."
  | unresolvedReference name =>
    "Reference `@" ++ name ++ "` has no function id; assemble it into a book first."
  | unknownDefinition id => "No definition has id " ++ toString id.toNat ++ "."
  | unencodable tag label payload =>
    "Label " ++ toString label ++ " and payload " ++ toString payload ++
      " do not fit in a " ++ tag.name ++ " term."

/-- A heap that terms are written into, and the scope of their variables. -/
structure Injector where
  heap : Heap
  scope : Scope

/-- A step of writing terms: it may fail, and what it did to the injector stays either way. -/
abbrev Injection (α : Type) : Type := EStateM InjectError Injector α

namespace Injection

/-! ## Steps -/

/-- Hands out cells. -/
def alloc (count : Nat) : Injection Nat := fun injector =>
  match injector.heap.alloc count with
  | .ok (address, heap) => .ok address { injector with heap }
  | .error error => .error (.heap error) injector

/-- Stores a word in a cell. -/
def write (address : Nat) (word : Word) : Injection Unit := fun injector =>
  match injector.heap.write address word with
  | .ok heap => .ok () { injector with heap }
  | .error error => .error (.heap error) injector

/-- The word of the given fields. -/
def encode (tag : Tag) (label payload : Nat) : Injection Word :=
  match Word.encode? tag label payload with
  | some word => pure word
  | none => throw (.unencodable tag label payload)

/-- Stores the word of the given fields in a cell. -/
def writeNode (host : Nat) (tag : Tag) (label payload : Nat) : Injection Unit := do
  let word ← encode tag label payload
  write host word

/-- Fails where a number is too large for the label of a word. -/
def checkLabel (tag : Tag) (value : Nat) : Injection Unit :=
  if Word.FitsLabel value then pure () else throw (.labelOverflow tag value)

/-- Stores a word in several cells, one after the other. -/
def writeAll (word : Word) : List Nat → Injection Unit
  | [] => pure ()
  | address :: addresses => do
    write address word
    writeAll word addresses

/-! ## Variables -/

/-- A binder of `name` comes up: its slot is `slot`, and its uses are copies of `word`.  The
uses that waited for it are written now. -/
def bindName (name : String) (slot : Nat) (word : Word) : Injection Unit := do
  write slot Word.sub
  let waiting ← modifyGet fun injector =>
    (injector.scope.sites name, { injector with scope := injector.scope.bind name word })
  writeAll word waiting

/-- A use of `name` comes up in a cell. -/
def useName (name : String) (host : Nat) : Injection Unit := do
  let injector ← get
  match injector.scope[name]? with
  | some (.bound word) => write host word
  | _ => set { injector with scope := injector.scope.addSite name host }

end Injection

open Injection

namespace Tree

mutual

/-- Writes a term into the cell `host`. -/
def inject : Tree → Nat → Injection Unit
  | .era, host => write host Word.era
  | .lam name body, host => do
    let node ← alloc 2
    let use ← encode .var 0 node
    bindName name node use
    inject body (node + 1)
    writeNode host .lam 0 node
  | .app function argument, host => do
    let node ← alloc 2
    inject function node
    inject argument (node + 1)
    writeNode host .app 0 node
  | .sup label left right, host => do
    checkLabel .sup label.toNat
    let node ← alloc 2
    inject left node
    inject right (node + 1)
    writeNode host .sup label.toNat node
  | .dup label first second value body, host => do
    checkLabel .dp0 label.toNat
    let node ← alloc 3
    let use ← encode .dp0 label.toNat node
    bindName first node use
    let use ← encode .dp1 label.toNat node
    bindName second (node + 1) use
    inject value (node + 2)
    inject body host
  | .ref name id?, host =>
    match id? with
    | some id => writeNode host .ref 0 id.toNat
    | none => throw (.unresolvedReference name)
  | .var name, host => useName name host
  | .ctr id fields, host => do
    checkLabel .ctr id.toNat
    let node ← if fields.isEmpty then pure 0 else alloc fields.length
    injectFields fields node
    writeNode host .ctr id.toNat node
  | .mat scrutinee arms, host => do
    checkLabel .mat arms.length
    let node ← alloc (1 + 2 * arms.length)
    inject scrutinee node
    injectArms arms (node + 1)
    writeNode host .mat arms.length node
  | .op2 operator left right, host => do
    let node ← alloc 2
    inject left node
    inject right (node + 1)
    writeNode host .opx operator.code node
  | .u32 value, host => writeNode host .w32 0 value.toNat

/-- Writes the fields of a constructor into cells that follow each other. -/
def injectFields : List Tree → Nat → Injection Unit
  | [], _ => pure ()
  | field :: fields, address => do
    inject field address
    injectFields fields (address + 1)

/-- Writes the arms of a match, two cells for each: the id, then the body. -/
def injectArms : List (UInt32 × Tree) → Nat → Injection Unit
  | [], _ => pure ()
  | (id, body) :: arms, address => do
    writeNode address .w32 0 id.toNat
    inject body (address + 1)
    injectArms arms (address + 2)

end

end Tree

namespace Injector

/-- An injector for a heap, before any name came up. -/
def new (heap : Heap) : Injector := ⟨heap, .empty⟩

/-- What ends the work of an injector: it fails if some name still waits for its binder, with
the least of them. -/
def finish (injector : Injector) : Except InjectError Unit :=
  match injector.scope.unbound? with
  | some name => .error (.unboundVariable name)
  | none => .ok ()

end Injector

end InteractionGraph
