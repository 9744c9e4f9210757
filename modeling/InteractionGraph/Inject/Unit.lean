import InteractionGraph.Inject.Basic
import InteractionGraph.Journal

/-!
# Units

A *unit* is a term that is written with a scope of its own, so that no variable reaches from
one unit into another.  `Tree.injectAt` writes a unit into a host cell and gives the word that
is there in the end.
-/

namespace InteractionGraph

/-- A step on a heap: it may fail, and what it did to the heap stays either way. -/
abbrev HeapAction (α : Type) : Type := EStateM InjectError Heap α

namespace HeapAction

variable {α : Type}

/-- A step on a heap that changes nothing if it fails. -/
def ofChange (change : Heap → Except HeapError (α × Heap)) : HeapAction α := fun heap =>
  match change heap with
  | .ok (value, heap) => .ok value heap
  | .error error => .error (.heap error) heap

/-- Hands out cells. -/
def alloc (count : Nat) : HeapAction Nat := ofChange fun heap => heap.alloc count

/-- Stores a word in a cell. -/
def write (address : Nat) (word : Word) : HeapAction Unit :=
  ofChange fun heap => (heap.write address word).map fun heap => ((), heap)

/-- The word in a cell. -/
def read (address : Nat) : HeapAction Word :=
  ofChange fun heap => (heap.read address).map fun word => (word, heap)

/-- A step of writing terms with a scope of its own, all of whose names have to be bound in the
end. -/
def withScope (injection : Injection α) : HeapAction α := fun heap =>
  match injection (.new heap) with
  | .error error injector => .error error injector.heap
  | .ok value injector =>
    match injector.finish with
    | .error error => .error error injector.heap
    | .ok () => .ok value injector.heap

end HeapAction

namespace Tree

/-- The cell of a term that stands alone. -/
def rootAddress : Nat := 0

/-- Writes a unit into the cell `host`, and gives the word that is left there. -/
def injectAt (tree : Tree) (host : Nat) : HeapAction Word := do
  HeapAction.withScope (tree.inject host)
  HeapAction.read host

/-- Writes a unit into the cell `host`, and tells of it if that succeeds. -/
def injectAtLogged (tree : Tree) (host : Nat) (heap : Heap) :
    Logged (EStateM.Result InjectError Heap Word) := do
  let result := tree.injectAt host heap
  match result with
  | .ok root heap => Logged.record (.injected host root heap.size)
  | .error _ _ => pure ()
  return result

/-- Hands out the cell of a term that stands alone, unless there are cells already. -/
def reserveRoot : HeapAction Unit := do
  let heap ← get
  if heap.size = 0 then
    let _ ← HeapAction.alloc 1

/-- Writes a term that stands alone. -/
def injectRoot (tree : Tree) : HeapAction Word := do
  reserveRoot
  tree.injectAt rootAddress

/-- Writes a term that stands alone, and tells of it if that succeeds. -/
def injectRootLogged (tree : Tree) (heap : Heap) :
    Logged (EStateM.Result InjectError Heap Word) :=
  match reserveRoot heap with
  | .ok () heap => tree.injectAtLogged rootAddress heap
  | .error error heap => pure (.error error heap)

@[simp]
theorem value_injectAtLogged (tree : Tree) (host : Nat) (heap : Heap) :
    (tree.injectAtLogged host heap).value = tree.injectAt host heap := by
  simp only [injectAtLogged]
  cases tree.injectAt host heap <;> rfl

@[simp]
theorem value_injectRootLogged (tree : Tree) (heap : Heap) :
    (tree.injectRootLogged heap).value = tree.injectRoot heap := by
  simp only [injectRootLogged, injectRoot, bind, EStateM.bind]
  cases reserveRoot heap <;> simp [pure, Logged.pure]

end Tree

end InteractionGraph
