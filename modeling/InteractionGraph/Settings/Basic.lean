import InteractionGraph.Heap.Basic

/-!
# Settings of a heap

A heap is set up with a capacity, which is the only setting there is.
-/

namespace InteractionGraph

/-- How a heap is set up. -/
structure Settings where
  /-- The number of cells that the heap may hand out. -/
  capacity : Nat := Heap.defaultCapacity
  deriving DecidableEq

/-- Why a text gives no settings. -/
inductive SettingsError where
  /-- The text is no list of assignments of numbers to the known keys. -/
  | malformed
  /-- A key is assigned more than once. -/
  | repeatedKey
  /-- A number is negative. -/
  | negative
  /-- A number does not fit in 64 bits. -/
  | tooLarge
  deriving DecidableEq

/-- The empty heap that settings ask for. -/
def Heap.ofSettings (settings : Settings) : Except HeapError Heap :=
  Heap.withCapacity settings.capacity

end InteractionGraph
