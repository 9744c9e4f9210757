import InteractionGraph.Heap.Basic

/-!
# Heaps as they change

`Heap.alloc` and `Heap.write` can refuse.  What they leave if they do not is a plain function of
the heap, `Heap.grow` and `Heap.set`, and a run of writes is `Heap.setAll`.
-/

namespace InteractionGraph

namespace Heap

/-- The heap with fresh cells behind the cells in use. -/
def grow (heap : Heap) (count : Nat) : Heap :=
  { heap with cells := heap.cells ++ Array.replicate count Word.void }

/-- The heap with a word stored in a cell. -/
def set (heap : Heap) (address : Nat) (word : Word) : Heap :=
  { heap with cells := heap.cells.set! address word }

/-- The heap with words stored in cells, one after the other. -/
def setAll (heap : Heap) (writes : List (Nat × Word)) : Heap :=
  writes.foldl (fun heap write => heap.set write.1 write.2) heap

@[simp]
theorem size_grow (heap : Heap) (count : Nat) : (heap.grow count).size = heap.size + count := by
  simp [grow, size]

@[simp]
theorem capacity_grow (heap : Heap) (count : Nat) :
    (heap.grow count).capacity = heap.capacity := rfl

@[simp]
theorem grow_zero (heap : Heap) : heap.grow 0 = heap := by
  simp [grow]

@[simp]
theorem size_set (heap : Heap) (address : Nat) (word : Word) :
    (heap.set address word).size = heap.size := by
  simp [set, size]

@[simp]
theorem capacity_set (heap : Heap) (address : Nat) (word : Word) :
    (heap.set address word).capacity = heap.capacity := rfl

theorem getElem?_set (heap : Heap) (address other : Nat) (word : Word) :
    (heap.set address word).cells[other]? =
      if address = other ∧ address < heap.size then some word else heap.cells[other]? := by
  simp only [set, Array.set!_eq_setIfInBounds, Array.getElem?_setIfInBounds, size]
  by_cases heq : address = other
  · subst heq
    by_cases hlt : address < heap.cells.size <;> simp [hlt]
  · simp [heq]

@[simp]
theorem setAll_nil (heap : Heap) : heap.setAll [] = heap := rfl

@[simp]
theorem setAll_cons (heap : Heap) (address : Nat) (word : Word) (writes : List (Nat × Word)) :
    heap.setAll ((address, word) :: writes) = (heap.set address word).setAll writes := rfl

@[simp]
theorem size_setAll (heap : Heap) (writes : List (Nat × Word)) :
    (heap.setAll writes).size = heap.size := by
  induction writes generalizing heap with
  | nil => rfl
  | cons write writes ih => rw [setAll_cons, ih, size_set]

@[simp]
theorem capacity_setAll (heap : Heap) (writes : List (Nat × Word)) :
    (heap.setAll writes).capacity = heap.capacity := by
  induction writes generalizing heap with
  | nil => rfl
  | cons write writes ih => rw [setAll_cons, ih, capacity_set]

/-- A cell that nothing is stored in keeps its word. -/
theorem getElem?_setAll_of_notMem {heap : Heap} {writes : List (Nat × Word)} {address : Nat}
    (h : address ∉ writes.map Prod.fst) :
    (heap.setAll writes).cells[address]? = heap.cells[address]? := by
  induction writes generalizing heap with
  | nil => rfl
  | cons write writes ih =>
    rw [List.map_cons, List.mem_cons, not_or] at h
    rw [setAll_cons, ih h.2, getElem?_set, if_neg fun hand => h.1 hand.1.symm]

/-- A cell in which only one word is stored, perhaps several times, has that word. -/
theorem getElem?_setAll_of_mem {heap : Heap} {writes : List (Nat × Word)} {address : Nat}
    {word : Word} (hlt : address < heap.size) (hmem : address ∈ writes.map Prod.fst)
    (hsame : ∀ write ∈ writes, write.1 = address → write.2 = word) :
    (heap.setAll writes).cells[address]? = some word := by
  induction writes generalizing heap with
  | nil => cases hmem
  | cons write writes ih =>
    rw [setAll_cons]
    by_cases hrest : address ∈ writes.map Prod.fst
    · refine ih ?_ hrest fun other hother => hsame other (List.mem_cons_of_mem _ hother)
      rw [size_set]
      exact hlt
    · have hfirst : write.1 = address := by
        rcases List.mem_cons.mp hmem with heq | hin
        · exact heq.symm
        · exact absurd hin hrest
      have hword : write.2 = word := hsame write List.mem_cons_self hfirst
      rw [getElem?_setAll_of_notMem hrest, getElem?_set, hfirst, hword, if_pos ⟨rfl, hlt⟩]

/-- The cells in use stay as they are when others are handed out. -/
theorem getElem?_grow_of_lt {heap : Heap} {count address : Nat} (h : address < heap.size) :
    (heap.grow count).cells[address]? = heap.cells[address]? :=
  Array.getElem?_append_left h

/-- A word in a cell was there before, or it is one of those that are stored. -/
theorem getElem?_or_mem_of_setAll {heap : Heap} {writes : List (Nat × Word)} {address : Nat}
    {word : Word} (h : (heap.setAll writes).cells[address]? = some word) :
    heap.cells[address]? = some word ∨ (address, word) ∈ writes := by
  induction writes generalizing heap with
  | nil => exact .inl h
  | cons write writes ih =>
    rcases ih h with hset | hmem
    · rw [getElem?_set] at hset
      split at hset
      · rename_i hand
        cases hset
        rw [← hand.1]
        exact .inr List.mem_cons_self
      · exact .inl hset
    · exact .inr (List.mem_cons_of_mem write hmem)

/-- A word in a cell was there before, or the cell is fresh and void. -/
theorem getElem?_or_void_of_grow {heap : Heap} {count address : Nat} {word : Word}
    (h : (heap.grow count).cells[address]? = some word) :
    heap.cells[address]? = some word ∨ word = .void := by
  by_cases hlt : address < heap.size
  · rw [getElem?_grow_of_lt hlt] at h
    exact .inl h
  · have hfresh : (Array.replicate count Word.void)[address - heap.cells.size]? = some word := by
      rw [← h]
      exact (Array.getElem?_append_right (Nat.le_of_not_lt hlt)).symm
    obtain ⟨_, rfl⟩ := Array.getElem?_eq_some_iff.mp hfresh
    exact .inr (Array.getElem_replicate _)

theorem alloc_eq_ok_grow_iff {heap heap' : Heap} {count address : Nat} :
    heap.alloc count = .ok (address, heap') ↔
      heap.size + count ≤ heap.capacity ∧ address = heap.size ∧ heap' = heap.grow count :=
  alloc_eq_ok_iff

theorem write_eq_ok_set_iff {heap heap' : Heap} {address : Nat} {word : Word} :
    heap.write address word = .ok heap' ↔ address < heap.size ∧ heap' = heap.set address word :=
  write_eq_ok_iff

/-! ## No operation makes a heap invalid -/

theorem valid_grow {heap : Heap} {count : Nat} (hvalid : heap.Valid)
    (hroom : heap.size + count ≤ heap.capacity) : (heap.grow count).Valid := by
  refine ⟨?_, hvalid.2⟩
  rw [size_grow]
  exact hroom

theorem valid_of_alloc {heap heap' : Heap} {count address : Nat} (hvalid : heap.Valid)
    (h : heap.alloc count = .ok (address, heap')) : heap'.Valid := by
  obtain ⟨hroom, _, rfl⟩ := alloc_eq_ok_grow_iff.mp h
  exact valid_grow hvalid hroom

theorem valid_of_write {heap heap' : Heap} {address : Nat} {word : Word} (hvalid : heap.Valid)
    (h : heap.write address word = .ok heap') : heap'.Valid := by
  obtain ⟨_, rfl⟩ := write_eq_ok_set_iff.mp h
  refine ⟨?_, hvalid.2⟩
  rw [size_set]
  exact hvalid.1

theorem valid_reset {heap : Heap} (hvalid : heap.Valid) : heap.reset.Valid :=
  ⟨Nat.zero_le _, hvalid.2⟩

end Heap

end InteractionGraph
