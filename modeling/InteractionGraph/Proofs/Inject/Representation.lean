import InteractionGraph.Heap.Basic
import InteractionGraph.Tree.Basic

/-!
# How a heap represents a term

`Heap.Represents` says what the cells of a heap have to hold for a term to be found in a host
cell.  It goes down the term and follows the addresses that it meets in the heap, so it does not
know in what order the cells were handed out or written.

On its way it meets three kinds of `Mark`s, in the order in which a term is written: the block of
a node, a binder together with the word that its uses read, and a use together with its cell.  A
duplication leaves no word of its own in its host, so its block is known from these marks alone.

The marks are all it takes to say which binder a use belongs to.  `resolve` looks at the marks on
either side of a use: the last binder of the name before it counts, and the first one behind it if
there is none before.
-/

namespace InteractionGraph

/-- Cells that were handed out together. -/
structure Block where
  start : Nat
  length : Nat
  deriving DecidableEq

namespace Block

instance : Membership Nat Block where
  mem block address := block.start ≤ address ∧ address < block.start + block.length

theorem mem_def {block : Block} {address : Nat} :
    address ∈ block ↔ block.start ≤ address ∧ address < block.start + block.length := Iff.rfl

/-- Two blocks have no cell in common. -/
def Disjoint (block other : Block) : Prop := ∀ address ∈ block, address ∉ other

/-- The blocks have no cell in common, and together they are the cells from `start` up to
`stop`. -/
def Tile (blocks : List Block) (start stop : Nat) : Prop :=
  blocks.Pairwise Disjoint ∧
    ∀ address, (∃ block ∈ blocks, address ∈ block) ↔ start ≤ address ∧ address < stop

end Block

/-- A binder: its name, its slot, and the fields of the word that its uses read. -/
structure Binder where
  name : String
  slot : Nat
  tag : Tag
  label : Nat
  node : Nat
  deriving DecidableEq

/-- Something that is met on the way through a term in a heap. -/
inductive Mark where
  /-- The cells of a node. -/
  | block (cells : Block)
  /-- A binder. -/
  | binder (found : Binder)
  /-- A use of a name in a cell. -/
  | use (name : String) (address : Nat)
  deriving DecidableEq

namespace Mark

/-- The block that is met. -/
def block? : Mark → Option Block
  | block cells => some cells
  | _ => none

/-- The binder that is met. -/
def binder? : Mark → Option Binder
  | binder found => some found
  | _ => none

/-- The blocks among some marks. -/
def blocks (marks : List Mark) : List Block := marks.filterMap block?

/-- The binders among some marks. -/
def binders (marks : List Mark) : List Binder := marks.filterMap binder?

@[simp]
theorem blocks_append (first second : List Mark) :
    blocks (first ++ second) = blocks first ++ blocks second :=
  List.filterMap_append

@[simp]
theorem blocks_block (cells : Block) (marks : List Mark) :
    blocks (.block cells :: marks) = cells :: blocks marks := rfl

@[simp]
theorem blocks_binder (found : Binder) (marks : List Mark) :
    blocks (.binder found :: marks) = blocks marks := rfl

@[simp]
theorem binders_nil : binders [] = [] := rfl

@[simp]
theorem binders_append (first second : List Mark) :
    binders (first ++ second) = binders first ++ binders second :=
  List.filterMap_append

@[simp]
theorem binders_block (cells : Block) (marks : List Mark) :
    binders (.block cells :: marks) = binders marks := rfl

@[simp]
theorem binders_binder (found : Binder) (marks : List Mark) :
    binders (.binder found :: marks) = found :: binders marks := rfl

@[simp]
theorem binders_use (name : String) (address : Nat) (marks : List Mark) :
    binders (.use name address :: marks) = binders marks := rfl

/-- The last binder of a name. -/
def lastBinder? (marks : List Mark) (name : String) : Option Binder :=
  (binders marks).reverse.find? fun binder => binder.name = name

/-- The first binder of a name. -/
def firstBinder? (marks : List Mark) (name : String) : Option Binder :=
  (binders marks).find? fun binder => binder.name = name

/-- The binder that a use of a name belongs to, by the marks before it and behind it. -/
def resolve (before after : List Mark) (name : String) : Option Binder :=
  (lastBinder? before name).or (firstBinder? after name)

end Mark

namespace Heap

/-- A cell holds the word of exactly these fields, none of them cut. -/
def Holds (heap : Heap) (address : Nat) (tag : Tag) (label payload : Nat) : Prop :=
  ∃ word, Word.encode? tag label payload = some word ∧ heap.cells[address]? = some word

namespace Holds

variable {heap heap' : Heap} {address label payload : Nat} {tag : Tag}

theorem of_pack (hfits : label < Word.labelLimit ∧ payload < Word.payloadLimit)
    (hcell : heap.cells[address]? = some (.pack tag label payload)) :
    heap.Holds address tag label payload :=
  ⟨_, if_pos hfits, hcell⟩

/-- Only the cell itself matters. -/
theorem of_cell_eq (h : heap.Holds address tag label payload)
    (hcell : heap'.cells[address]? = heap.cells[address]?) :
    heap'.Holds address tag label payload := by
  obtain ⟨word, hword, hold⟩ := h
  exact ⟨word, hword, hcell.trans hold⟩

theorem lt_size (h : heap.Holds address tag label payload) : address < heap.size := by
  obtain ⟨word, _, hcell⟩ := h
  exact (Array.getElem?_eq_some_iff.mp hcell).1

/-- A cell that holds the word of a node is not void: no tag has the code zero. -/
theorem ne_void (h : heap.Holds address tag label payload) :
    ∃ word, heap.cells[address]? = some word ∧ word ≠ Word.void := by
  obtain ⟨word, hword, hcell⟩ := h
  refine ⟨word, hcell, ?_⟩
  rintro rfl
  unfold Word.encode? at hword
  split at hword
  · have hcode := congrArg Word.code (Option.some.inj hword)
    rw [Word.pack, Word.code_ofFields, Nat.mod_eq_of_lt tag.code_lt] at hcode
    exact absurd hcode (Nat.ne_of_gt tag.code_pos)
  · cases hword

end Holds

section Represents

variable (heap : Heap) (binders : List Binder)

mutual

/-- The term is found in the cell `host`, its uses read binders among `binders`, and `marks` are
met on the way. -/
def Represents : Tree → Nat → List Mark → Prop
  | .era, host, marks => heap.Holds host .era 0 0 ∧ marks = []
  | .lam name body, host, marks => ∃ node inner,
    heap.Holds host .lam 0 node ∧ heap.Holds node .sub 0 0 ∧
      Represents body (node + 1) inner ∧
      marks = .block ⟨node, 2⟩ :: .binder ⟨name, node, .var, 0, node⟩ :: inner
  | .app function argument, host, marks => ∃ node left right,
    heap.Holds host .app 0 node ∧
      Represents function node left ∧ Represents argument (node + 1) right ∧
      marks = .block ⟨node, 2⟩ :: (left ++ right)
  | .sup label first second, host, marks => ∃ node left right,
    heap.Holds host .sup label.toNat node ∧
      Represents first node left ∧ Represents second (node + 1) right ∧
      marks = .block ⟨node, 2⟩ :: (left ++ right)
  | .dup label first second value body, host, marks => ∃ node left right,
    heap.Holds node .sub 0 0 ∧ heap.Holds (node + 1) .sub 0 0 ∧
      Represents value (node + 2) left ∧ Represents body host right ∧
      marks = .block ⟨node, 3⟩ :: .binder ⟨first, node, .dp0, label.toNat, node⟩ ::
        .binder ⟨second, node + 1, .dp1, label.toNat, node⟩ :: (left ++ right)
  | .ref _ id?, host, marks => ∃ id, id? = some id ∧ heap.Holds host .ref 0 id.toNat ∧ marks = []
  | .var name, host, marks =>
    (∃ binder ∈ binders, binder.name = name ∧
      heap.Holds host binder.tag binder.label binder.node) ∧ marks = [.use name host]
  | .ctr id fields, host, marks => ∃ node inner,
    heap.Holds host .ctr id.toNat node ∧ (node = 0 ↔ fields = []) ∧
      RepresentsFields fields node inner ∧
      marks = (if fields = [] then [] else [.block ⟨node, fields.length⟩]) ++ inner
  | .mat scrutinee arms, host, marks => ∃ node left right,
    heap.Holds host .mat arms.length node ∧
      Represents scrutinee node left ∧ RepresentsArms arms (node + 1) right ∧
      marks = .block ⟨node, 1 + 2 * arms.length⟩ :: (left ++ right)
  | .op2 operator first second, host, marks => ∃ node left right,
    heap.Holds host .opx operator.code node ∧
      Represents first node left ∧ Represents second (node + 1) right ∧
      marks = .block ⟨node, 2⟩ :: (left ++ right)
  | .u32 value, host, marks => heap.Holds host .w32 0 value.toNat ∧ marks = []

/-- The fields of a constructor are found in cells that follow each other. -/
def RepresentsFields : List Tree → Nat → List Mark → Prop
  | [], _, marks => marks = []
  | field :: fields, address, marks => ∃ left right,
    Represents field address left ∧ RepresentsFields fields (address + 1) right ∧
      marks = left ++ right

/-- The arms of a match are found in pairs of cells that follow each other, the id and then the
body. -/
def RepresentsArms : List (UInt32 × Tree) → Nat → List Mark → Prop
  | [], _, marks => marks = []
  | (id, body) :: arms, address, marks => ∃ left right,
    heap.Holds address .w32 0 id.toNat ∧ Represents body (address + 1) left ∧
      RepresentsArms arms (address + 2) right ∧ marks = left ++ right

end

end Represents

end Heap

end InteractionGraph
