import InteractionGraph.Word.Basic

/-!
# The heap

A heap is an array of words that grows at its end.  `Heap.alloc` hands out a run of fresh
cells behind the last one, `Heap.write` and `Heap.read` reach a cell that is in use, and
`Heap.reset` gives all of them back at once.  Addresses are then handed out from zero again.

Addresses have to fit in the payload of a word, so no heap may hold more than
`Word.payloadLimit` cells.  `Heap.Valid` says that a heap keeps to this and to its own
capacity.  All arithmetic is on natural numbers: a request of any size is compared with the
room that is left, and cannot wrap around.
-/

namespace InteractionGraph

/-- Why a heap operation was refused. -/
inductive HeapError where
  /-- The request does not fit beside the cells in use.  Nothing was handed out. -/
  | outOfMemory (requested used capacity : Nat)
  /-- Some address of such a heap would not fit in a payload. -/
  | capacityTooLarge (capacity : Nat)
  /-- No cell in use has this address. -/
  | unallocated (address size : Nat)
  deriving DecidableEq

/-- The text of a heap error. -/
def HeapError.message : HeapError → String
  | outOfMemory requested used capacity =>
    "Heap exhausted: requested " ++ toString requested ++ " cells with " ++ toString used ++
      " of " ++ toString capacity ++ " already in use."
  | capacityTooLarge capacity =>
    "Heap capacity " ++ toString capacity ++ " exceeds the addressable maximum of " ++
      toString Word.payloadLimit ++ " cells."
  | unallocated address size =>
    "Address " ++ toString address ++ " lies outside of the " ++ toString size ++
      " cells in use."

/-- A heap: the cells in use, in the order of their addresses, and the greatest number of cells
there may be at a time. -/
structure Heap where
  cells : Array Word
  capacity : Nat
  deriving DecidableEq

namespace Heap

/-- The capacity of a heap that nobody chose one for. -/
def defaultCapacity : Nat := 16777216

/-- The empty heap of the default capacity. -/
def new : Heap := ⟨#[], defaultCapacity⟩

/-- The empty heap of a given capacity, if its addresses fit in a payload. -/
def withCapacity (capacity : Nat) : Except HeapError Heap :=
  if capacity ≤ Word.payloadLimit then .ok ⟨#[], capacity⟩
  else .error (.capacityTooLarge capacity)

/-- The number of cells in use. -/
def size (heap : Heap) : Nat := heap.cells.size

/-- Whether no cell is in use. -/
def isEmpty (heap : Heap) : Bool := heap.cells.isEmpty

/-- The cells and the capacity respect the width of an address. -/
def Valid (heap : Heap) : Prop :=
  heap.size ≤ heap.capacity ∧ heap.capacity ≤ Word.payloadLimit

instance (heap : Heap) : Decidable heap.Valid :=
  inferInstanceAs (Decidable (heap.size ≤ heap.capacity ∧ heap.capacity ≤ Word.payloadLimit))

/-- Hands out `count` fresh cells, which read as `Word.void`, and gives the address of the
first.  A refused request leaves the heap as it is. -/
def alloc (heap : Heap) (count : Nat) : Except HeapError (Nat × Heap) :=
  if heap.size + count ≤ heap.capacity then
    .ok (heap.size, { heap with cells := heap.cells ++ Array.replicate count Word.void })
  else
    .error (.outOfMemory count heap.size heap.capacity)

/-- The word in a cell. -/
def read (heap : Heap) (address : Nat) : Except HeapError Word :=
  match heap.cells[address]? with
  | some word => .ok word
  | none => .error (.unallocated address heap.size)

/-- Stores a word in a cell. -/
def write (heap : Heap) (address : Nat) (word : Word) : Except HeapError Heap :=
  if h : address < heap.cells.size then
    .ok { heap with cells := heap.cells.set address word h }
  else
    .error (.unallocated address heap.size)

/-- Gives back every cell; the next run handed out starts at address `0`. -/
def reset (heap : Heap) : Heap := { heap with cells := #[] }

/-! ## What each operation does to the cells -/

/-- A run is handed out exactly when it fits beside the cells in use, and is then added behind
them. -/
theorem alloc_eq_ok_iff {heap heap' : Heap} {count address : Nat} :
    heap.alloc count = .ok (address, heap') ↔
      heap.size + count ≤ heap.capacity ∧ address = heap.size ∧
        heap' = ⟨heap.cells ++ Array.replicate count Word.void, heap.capacity⟩ := by
  unfold alloc
  split
  · rename_i h
    simp only [Except.ok.injEq, Prod.mk.injEq, h, true_and]
    exact ⟨fun ⟨ha, hh⟩ => ⟨ha.symm, hh.symm⟩, fun ⟨ha, hh⟩ => ⟨ha.symm, hh.symm⟩⟩
  · rename_i h
    simp [h]

/-- A cell can be read exactly when it is in use. -/
theorem read_eq_ok_iff {heap : Heap} {address : Nat} {word : Word} :
    heap.read address = .ok word ↔ heap.cells[address]? = some word := by
  unfold read
  split <;> simp_all

/-- A cell can be written exactly when it is in use, and no other cell changes. -/
theorem write_eq_ok_iff {heap heap' : Heap} {address : Nat} {word : Word} :
    heap.write address word = .ok heap' ↔
      address < heap.size ∧ heap' = ⟨heap.cells.set! address word, heap.capacity⟩ := by
  unfold write size
  split
  · rename_i h
    simp only [Except.ok.injEq, h, true_and, Array.set!_eq_setIfInBounds,
      Array.setIfInBounds, dif_pos]
    exact ⟨Eq.symm, Eq.symm⟩
  · rename_i h
    simp [h]

theorem valid_new : new.Valid := by decide

theorem valid_of_withCapacity {capacity : Nat} {heap : Heap}
    (h : withCapacity capacity = .ok heap) : heap.Valid := by
  unfold withCapacity at h
  split at h
  · rename_i hcapacity
    cases h
    exact ⟨Nat.zero_le _, hcapacity⟩
  · cases h

end Heap

end InteractionGraph
