import InteractionGraph.Proofs.Inject.Frame
import InteractionGraph.Proofs.Inject.Targets

/-!
# The history of a heap

A heap does not remember how it came about.  `Heap.Ran` goes along with one from the time it was
made and keeps a history: which cells were handed out, which requests were refused, what was stored
and when all cells were given back.

The history alone says what the heap is like.  `Heap.blocks` are the blocks that were handed out
since the last reset, and `Heap.wordAt?` is what was stored last in a cell since it was handed out.
Neither of them looks at cells, so neither can see what the heap did with a cell that it gave back
and handed out again.  That the heap agrees with both (`Heap.recorded_of_ran`) is what makes it a
heap that hands out fresh cells only, although the addresses are used again after a reset.

Requests are natural numbers here.  `Heap.allocIn64` computes in 64 bits, and refuses a request as
well if the sum does not fit in them; it comes to the same because the capacity is far below.
-/

namespace InteractionGraph

/-- A word is stored in a cell exactly if the cell is in use. -/
theorem HeapAction.write_eq_ok_iff {heap heap' : Heap} {address : Nat} {word : Word} {done : Unit} :
    HeapAction.write address word heap = .ok done heap' ↔
      address < heap.size ∧ heap' = heap.set address word := by
  rw [← Heap.write_eq_ok_set_iff]
  unfold HeapAction.write HeapAction.ofChange
  cases hwrite : heap.write address word <;> simp [hwrite, Except.map]

theorem HeapAction.alloc_eq (count : Nat) (heap : Heap) :
    HeapAction.alloc count heap =
      if heap.size + count ≤ heap.capacity then .ok heap.size (heap.grow count)
      else .error (.heap (.outOfMemory count heap.size heap.capacity)) heap := by
  unfold HeapAction.alloc HeapAction.ofChange Heap.alloc
  by_cases hroom : heap.size + count ≤ heap.capacity
  · simp only [if_pos hroom]
    rfl
  · simp only [if_neg hroom]

namespace Heap

/-! ## Histories -/

/-- Something that happened to a heap. -/
inductive Entry where
  /-- The cells of a block were handed out. -/
  | granted (block : Block)
  /-- A request for so many cells was refused. -/
  | refused (count : Nat)
  /-- A word was stored in a cell. -/
  | stored (address : Nat) (word : Word)
  /-- All cells were given back. -/
  | cleared
  deriving DecidableEq

/-- The heap was made with this capacity. -/
inductive Made : Nat → Heap → Prop where
  | new : Made defaultCapacity .new
  | withCapacity {capacity : Nat} {heap : Heap} :
    Heap.withCapacity capacity = .ok heap → Made capacity heap

/-- The first heap became the second one in the course of this history, the latest entry of which
comes first. -/
inductive Ran (start : Heap) : List Entry → Heap → Prop where
  | start : Ran start [] start
  | granted {past : List Entry} {heap heap' : Heap} {count address : Nat} :
    Ran start past heap → HeapAction.alloc count heap = .ok address heap' →
      Ran start (.granted ⟨address, count⟩ :: past) heap'
  | refused {past : List Entry} {heap heap' : Heap} {count : Nat} {error : InjectError} :
    Ran start past heap → HeapAction.alloc count heap = .error error heap' →
      Ran start (.refused count :: past) heap'
  | stored {past : List Entry} {heap heap' : Heap} {address : Nat} {word : Word} :
    Ran start past heap → HeapAction.write address word heap = .ok () heap' →
      Ran start (.stored address word :: past) heap'
  | cleared {past : List Entry} {heap : Heap} :
    Ran start past heap → Ran start (.cleared :: past) heap.reset

/-- The blocks handed out since the last reset, in the order in which they were. -/
def blocks : List Entry → List Block
  | [] => []
  | .granted block :: past => blocks past ++ [block]
  | .refused _ :: past => blocks past
  | .stored _ _ :: past => blocks past
  | .cleared :: _ => []

/-- The word stored last in a cell since the cell was handed out, or `Word.void` if there was none;
nothing if the cell is not in use. -/
def wordAt? (address : Nat) : List Entry → Option Word
  | [] => none
  | .granted block :: past =>
    if block.start ≤ address ∧ address < block.start + block.length then some .void
    else wordAt? address past
  | .refused _ :: past => wordAt? address past
  | .stored other word :: past => if other = address then some word else wordAt? address past
  | .cleared :: _ => none

/-- Hands out cells as `Heap.alloc` does, with a sum of 64 bits: where it does not fit in them, the
request is refused. -/
def allocIn64 (heap : Heap) (count : UInt64) : Except HeapError (Nat × Heap) :=
  let used := UInt64.ofNat heap.size
  if used.toNat + count.toNat < UInt64.size ∧ used + count ≤ UInt64.ofNat heap.capacity then
    .ok (used.toNat, heap.grow count.toNat)
  else
    .error (.outOfMemory count.toNat used.toNat heap.capacity)

/-- A heap of this capacity is what its history says. -/
structure Recorded (capacity : Nat) (past : List Entry) (heap : Heap) : Prop where
  capacity_eq : heap.capacity = capacity
  size_le : heap.size ≤ capacity
  capacity_le : capacity ≤ 2 ^ 32
  /-- Each block begins where the one before it ends. -/
  consecutive : Block.Consecutive (blocks past) 0 heap.size
  /-- No cell is in two blocks, and each cell in use is in one. -/
  tile : Block.Tile (blocks past) 0 heap.size
  /-- A request is granted exactly if it fits, and one that is refused changes nothing. -/
  alloc_eq : ∀ count, HeapAction.alloc count heap =
    if heap.size + count ≤ capacity then .ok heap.size (heap.grow count)
    else .error (.heap (.outOfMemory count heap.size capacity)) heap
  allocIn64_eq : ∀ count : UInt64, heap.allocIn64 count = heap.alloc count.toNat
  isSome_wordAt?_iff : ∀ address, (wordAt? address past).isSome ↔ address < heap.size
  read_eq_ok_iff : ∀ address word, heap.read address = .ok word ↔ wordAt? address past = some word
  /-- A word can be stored in each cell in use, and no other cell changes. -/
  write_eq_ok : ∀ address word, address < heap.size → ∃ heap',
    HeapAction.write address word heap = .ok () heap' ∧ heap'.size = heap.size ∧
      heap'.read address = .ok word ∧ ∀ other, other ≠ address → heap'.read other = heap.read other

variable {capacity : Nat} {start heap heap' : Heap} {past : List Entry}

/-! ## What a step does -/

theorem Made.eq (h : Made capacity start) :
    start = ⟨#[], capacity⟩ ∧ capacity ≤ Word.payloadLimit := by
  cases h with
  | new => exact ⟨rfl, by decide⟩
  | withCapacity hbuilt =>
    unfold Heap.withCapacity at hbuilt
    split at hbuilt
    · rename_i hle
      cases hbuilt
      exact ⟨rfl, hle⟩
    · cases hbuilt

/-- The cells that are handed out are void, and the others stay as they are. -/
theorem getElem?_grow (heap : Heap) (count address : Nat) :
    (heap.grow count).cells[address]? =
      if heap.size ≤ address ∧ address < heap.size + count then some .void
      else heap.cells[address]? := by
  unfold grow size
  rw [Array.getElem?_append, Array.getElem?_replicate]
  by_cases hlt : address < heap.cells.size
  · rw [if_pos hlt, if_neg (by omega)]
  · rw [if_neg hlt]
    by_cases hfresh : address < heap.cells.size + count
    · rw [if_pos (by omega), if_pos (by omega)]
    · rw [if_neg (by omega), if_neg (by omega), Array.getElem?_eq_none (by omega)]

/-- The sum of 64 bits is the sum, unless it does not fit; and then the request does not, either. -/
theorem allocIn64_eq_alloc (hvalid : heap.Valid) (count : UInt64) :
    heap.allocIn64 count = heap.alloc count.toNat := by
  obtain ⟨hsize, hcapacity⟩ := hvalid
  have hlimit : Word.payloadLimit < UInt64.size := by decide
  have hused : (UInt64.ofNat heap.size).toNat = heap.size :=
    UInt64.toNat_ofNat_of_lt' (by omega)
  have hcells : (UInt64.ofNat heap.capacity).toNat = heap.capacity :=
    UInt64.toNat_ofNat_of_lt' (by omega)
  have hsum : heap.size + count.toNat < UInt64.size →
      (UInt64.ofNat heap.size + count).toNat = heap.size + count.toNat := by
    intro hfits
    rw [UInt64.toNat_add, hused, Nat.mod_eq_of_lt hfits]
  have hroom : heap.size + count.toNat < UInt64.size ∧
      UInt64.ofNat heap.size + count ≤ UInt64.ofNat heap.capacity ↔
        heap.size + count.toNat ≤ heap.capacity := by
    rw [UInt64.le_iff_toNat_le, hcells]
    constructor
    · rintro ⟨hfits, hle⟩
      rwa [hsum hfits] at hle
    · intro hle
      have hfits : heap.size + count.toNat < UInt64.size := by omega
      exact ⟨hfits, by rwa [hsum hfits]⟩
  simp only [allocIn64, hused, hroom]
  rfl

/-! ## What the history says -/

/-- The part of `Recorded` that each step keeps. -/
structure Agrees (capacity : Nat) (past : List Entry) (heap : Heap) : Prop where
  valid : heap.Valid
  capacity_eq : heap.capacity = capacity
  consecutive : Block.Consecutive (blocks past) 0 heap.size
  getElem?_eq : ∀ address, heap.cells[address]? = wordAt? address past

namespace Agrees

theorem initial (h : Made capacity start) : Agrees capacity [] start := by
  obtain ⟨rfl, hle⟩ := h.eq
  exact ⟨⟨Nat.zero_le _, hle⟩, rfl, rfl, fun _ => rfl⟩

theorem granted {count address : Nat} (h : Agrees capacity past heap)
    (halloc : HeapAction.alloc count heap = .ok address heap') :
    Agrees capacity (.granted ⟨address, count⟩ :: past) heap' := by
  have hgrow := HeapAction.of_ofChange_eq_ok halloc
  obtain ⟨rfl, rfl⟩ := HeapAction.of_alloc_eq_ok halloc
  refine ⟨valid_of_alloc h.valid hgrow, h.capacity_eq, ?_, ?_⟩
  · rw [size_grow]
    exact h.consecutive.append ⟨rfl, rfl⟩
  · intro other
    rw [getElem?_grow, h.getElem?_eq]
    rfl

theorem refused {count : Nat} {error : InjectError} (h : Agrees capacity past heap)
    (halloc : HeapAction.alloc count heap = .error error heap') :
    Agrees capacity (.refused count :: past) heap' := by
  obtain ⟨rfl, -⟩ := HeapAction.of_alloc_eq_error halloc
  exact ⟨h.valid, h.capacity_eq, h.consecutive, h.getElem?_eq⟩

theorem stored {address : Nat} {word : Word} (h : Agrees capacity past heap)
    (hwrite : HeapAction.write address word heap = .ok () heap') :
    Agrees capacity (.stored address word :: past) heap' := by
  obtain ⟨hlt, rfl⟩ := HeapAction.write_eq_ok_iff.mp hwrite
  refine ⟨valid_of_write h.valid (write_eq_ok_set_iff.mpr ⟨hlt, rfl⟩), h.capacity_eq, ?_, ?_⟩
  · rw [size_set]
    exact h.consecutive
  · intro other
    rw [getElem?_set, h.getElem?_eq]
    simp [wordAt?, hlt]

theorem cleared (h : Agrees capacity past heap) : Agrees capacity (.cleared :: past) heap.reset :=
  ⟨valid_reset h.valid, h.capacity_eq, rfl, fun _ => rfl⟩

end Agrees

theorem agrees_of_ran (hmade : Made capacity start) (h : Ran start past heap) :
    Agrees capacity past heap := by
  induction h with
  | start => exact .initial hmade
  | granted _ halloc ih => exact ih.granted halloc
  | refused _ halloc ih => exact ih.refused halloc
  | stored _ hwrite ih => exact ih.stored hwrite
  | cleared _ ih => exact ih.cleared

theorem Agrees.recorded (h : Agrees capacity past heap) : Recorded capacity past heap where
  capacity_eq := h.capacity_eq
  size_le := h.capacity_eq ▸ h.valid.1
  capacity_le := h.capacity_eq ▸ h.valid.2
  consecutive := h.consecutive
  tile := h.consecutive.tile
  alloc_eq := by
    intro count
    rw [HeapAction.alloc_eq, h.capacity_eq]
  allocIn64_eq := allocIn64_eq_alloc h.valid
  isSome_wordAt?_iff := by
    intro address
    rw [← h.getElem?_eq, Option.isSome_iff_ne_none, ne_eq, Array.getElem?_eq_none_iff, Nat.not_le]
    rfl
  read_eq_ok_iff := by
    intro address word
    rw [Heap.read_eq_ok_iff, h.getElem?_eq]
  write_eq_ok := by
    intro address word hlt
    have hwrite : HeapAction.write address word heap = .ok () (heap.set address word) :=
      HeapAction.write_eq_ok_iff.mpr ⟨hlt, rfl⟩
    refine ⟨heap.set address word, hwrite, size_set _ _ _, ?_, ?_⟩
    · rw [Heap.read_eq_ok_iff, getElem?_set, if_pos ⟨rfl, hlt⟩]
    · intro other hne
      rw [Heap.read, Heap.read, getElem?_set, if_neg fun hand => hne hand.1.symm, size_set]

/-- A heap that was given back is one that was made just now. -/
theorem Agrees.reset_eq (h : Agrees capacity past heap) (hmade : Made capacity start) :
    heap.reset = start := by
  obtain ⟨rfl, -⟩ := hmade.eq
  unfold reset
  rw [h.capacity_eq]

/-- What comes after a reset does not depend on what was before. -/
theorem Ran.of_cleared {later earlier : List Entry} (hmade : Made capacity start)
    (h : Ran start (later ++ .cleared :: earlier) heap) : Ran start later heap := by
  induction later generalizing heap with
  | nil =>
    cases h with
    | cleared hran =>
      rw [(agrees_of_ran hmade hran).reset_eq hmade]
      exact .start
  | cons entry later ih =>
    cases h with
    | granted hran halloc => exact (ih hran).granted halloc
    | refused hran halloc => exact (ih hran).refused halloc
    | stored hran hwrite => exact (ih hran).stored hwrite
    | cleared hran => exact (ih hran).cleared

/-- In every course of requests, stores and resets, a heap stays within its capacity, and it is what
its history says: the blocks that were handed out since the last reset follow each other from the
first cell to the last one in use, a request is granted exactly if it fits, and a cell has the word
stored last in it since it was handed out.  Nothing is left of what was before a reset: the heap
would be the same without it. -/
theorem recorded_of_ran (hmade : Made capacity start) (h : Ran start past heap) :
    Recorded capacity past heap ∧
      ∀ later earlier, past = later ++ .cleared :: earlier → Ran start later heap := by
  refine ⟨(agrees_of_ran hmade h).recorded, ?_⟩
  rintro later earlier rfl
  exact h.of_cleared hmade

/-- Three cells are handed out, the second one is written, and a block without cells shares its
address with the next one.  All are given back; a request that would wrap around is refused, and the
second of the cells handed out then is void again. -/
theorem recorded_of_ran_reset :
    Made 4 ⟨#[], 4⟩ ∧
      Ran ⟨#[], 4⟩
        [.stored 0 .sub, .granted ⟨0, 2⟩, .refused 18446744073709551615, .cleared,
          .granted ⟨3, 1⟩, .granted ⟨3, 0⟩, .stored 1 .era, .granted ⟨0, 3⟩]
        ⟨#[.sub, .void], 4⟩ ∧
      Recorded 4
        [.stored 0 .sub, .granted ⟨0, 2⟩, .refused 18446744073709551615, .cleared,
          .granted ⟨3, 1⟩, .granted ⟨3, 0⟩, .stored 1 .era, .granted ⟨0, 3⟩]
        ⟨#[.sub, .void], 4⟩ := by
  have hmade : Made 4 ⟨#[], 4⟩ := .withCapacity rfl
  have hthree : Ran ⟨#[], 4⟩ [.granted ⟨0, 3⟩] ⟨#[.void, .void, .void], 4⟩ := .granted .start rfl
  have hstored : Ran ⟨#[], 4⟩ [.stored 1 .era, .granted ⟨0, 3⟩] ⟨#[.void, .era, .void], 4⟩ :=
    .stored hthree rfl
  have hfull : Ran ⟨#[], 4⟩ [.granted ⟨3, 1⟩, .granted ⟨3, 0⟩, .stored 1 .era, .granted ⟨0, 3⟩]
      ⟨#[.void, .era, .void, .void], 4⟩ :=
    .granted (.granted hstored rfl) rfl
  have hrefused : HeapAction.alloc 18446744073709551615 ⟨#[], 4⟩ =
      .error (.heap (.outOfMemory 18446744073709551615 0 4)) ⟨#[], 4⟩ := by
    rw [HeapAction.alloc_eq, if_neg (by decide)]
    rfl
  have htwo : Ran ⟨#[], 4⟩
      [.granted ⟨0, 2⟩, .refused 18446744073709551615, .cleared, .granted ⟨3, 1⟩, .granted ⟨3, 0⟩,
        .stored 1 .era, .granted ⟨0, 3⟩]
      ⟨#[.void, .void], 4⟩ :=
    .granted (.refused hfull.cleared hrefused) rfl
  have hwrite : HeapAction.write 0 .sub ⟨#[.void, .void], 4⟩ = .ok () ⟨#[.sub, .void], 4⟩ := rfl
  have hran := Ran.stored htwo hwrite
  exact ⟨hmade, hran, (recorded_of_ran hmade hran).1⟩

end Heap

end InteractionGraph
