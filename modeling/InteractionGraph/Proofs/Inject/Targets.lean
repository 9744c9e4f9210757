import InteractionGraph.Proofs.Inject.Script

/-!
# Every cell belongs to one step

Each step that stores something has a cell of its own, its *target*: the slot of a binder, the cell
of a use or of a reference, the cell that a word is stored in.  A binder may also write cells that
waited for it, but these are targets of earlier uses.

`targets_steps_perm` is the fact that keeps the steps of a term out of each other's way: the
targets of all steps are the host and the fresh cells, each of them once.  That holds although the
body of a duplication is written into the host of the duplication, since the duplication itself
stores nothing there.

The blocks follow each other without a gap, in the order of the steps (`consecutive_steps`).
-/

namespace InteractionGraph

open Step

namespace Step

/-- The cell that belongs to a step. -/
def target? : Step → Option Nat
  | bind binder => some binder.slot
  | use _ address => some address
  | store address _ _ _ => some address
  | unlinked _ address => some address
  | check _ _ | reserve _ => none

/-- The cells that belong to some steps. -/
def targets (steps : List Step) : List Nat := steps.filterMap target?

@[simp]
theorem targets_nil : targets [] = [] := rfl

@[simp]
theorem targets_append (first second : List Step) :
    targets (first ++ second) = targets first ++ targets second :=
  List.filterMap_append

@[simp]
theorem targets_check (tag : Tag) (value : Nat) (steps : List Step) :
    targets (check tag value :: steps) = targets steps := rfl

@[simp]
theorem targets_unlinked (name : String) (address : Nat) (steps : List Step) :
    targets (unlinked name address :: steps) = address :: targets steps := rfl

@[simp]
theorem targets_reserve (cells : Block) (steps : List Step) :
    targets (reserve cells :: steps) = targets steps := rfl

@[simp]
theorem targets_bind (binder : Binder) (steps : List Step) :
    targets (bind binder :: steps) = binder.slot :: targets steps := rfl

@[simp]
theorem targets_use (name : String) (address : Nat) (steps : List Step) :
    targets (use name address :: steps) = address :: targets steps := rfl

@[simp]
theorem targets_store (address : Nat) (tag : Tag) (label payload : Nat) (steps : List Step) :
    targets (store address tag label payload :: steps) = address :: targets steps := rfl

/-- What a reader of the heap meets of a step. -/
def mark? : Step → Option Mark
  | reserve cells => some (.block cells)
  | bind binder => some (.binder binder)
  | use name address => some (.use name address)
  | check _ _ | unlinked _ _ | store _ _ _ _ => none

/-- What a reader of the heap meets of some steps. -/
def marks (steps : List Step) : List Mark := steps.filterMap mark?

@[simp]
theorem marks_nil : marks [] = [] := rfl

@[simp]
theorem marks_append (first second : List Step) :
    marks (first ++ second) = marks first ++ marks second :=
  List.filterMap_append

@[simp]
theorem marks_check (tag : Tag) (value : Nat) (steps : List Step) :
    marks (check tag value :: steps) = marks steps := rfl

@[simp]
theorem marks_unlinked (name : String) (address : Nat) (steps : List Step) :
    marks (unlinked name address :: steps) = marks steps := rfl

@[simp]
theorem marks_reserve (cells : Block) (steps : List Step) :
    marks (reserve cells :: steps) = .block cells :: marks steps := rfl

@[simp]
theorem marks_bind (binder : Binder) (steps : List Step) :
    marks (bind binder :: steps) = .binder binder :: marks steps := rfl

@[simp]
theorem marks_use (name : String) (address : Nat) (steps : List Step) :
    marks (use name address :: steps) = .use name address :: marks steps := rfl

@[simp]
theorem marks_store (address : Nat) (tag : Tag) (label payload : Nat) (steps : List Step) :
    marks (store address tag label payload :: steps) = marks steps := rfl

end Step

namespace Tree

/-! ## The host and the fresh cells, each once -/

mutual

/-- The targets of the steps of a term are its host and its fresh cells, each of them once. -/
theorem targets_steps_perm (tree : Tree) (host base : Nat) :
    (targets (tree.steps host base)).Perm (host :: List.range' base tree.cost) := by
  -- Every address is counted on both sides: the block of the node, then the cells of its parts.
  rw [List.perm_iff_count]
  intro address
  cases tree with
  | era | var name | u32 value => rfl
  | ref name id? => cases id? <;> rfl
  | lam name body =>
    have hbody := (targets_steps_perm body (base + 1) (base + 2)).count_eq address
    simp only [List.count_cons, List.count_range_1'] at hbody
    simp only [steps, targets_reserve, targets_bind, targets_append, targets_store, targets_nil,
      List.count_cons, List.count_append, List.count_nil, List.count_range_1', cost_lam, hbody]
    grind
  | app first second | sup label first second | op2 operator first second =>
    have hfirst := (targets_steps_perm first base (base + 2)).count_eq address
    have hsecond :=
      (targets_steps_perm second (base + 1) (base + 2 + first.cost)).count_eq address
    simp only [List.count_cons, List.count_range_1'] at hfirst hsecond
    simp only [steps, targets_check, targets_reserve, targets_append, targets_store, targets_nil,
      List.count_cons, List.count_append, List.count_nil, List.count_range_1', cost_app, cost_sup,
      cost_op2, hfirst, hsecond]
    grind
  | dup label first second value body =>
    have hvalue := (targets_steps_perm value (base + 2) (base + 3)).count_eq address
    have hbody := (targets_steps_perm body host (base + 3 + value.cost)).count_eq address
    simp only [List.count_cons, List.count_range_1'] at hvalue hbody
    simp only [steps, targets_check, targets_reserve, targets_bind, targets_append,
      List.count_cons, List.count_append, List.count_range_1', cost_dup, hvalue, hbody]
    grind
  | ctr id fields =>
    have hfields :=
      (targets_stepsOfFields_perm fields base (base + fields.length)).count_eq address
    simp only [List.count_append, List.count_range_1'] at hfields
    by_cases hempty : fields = []
    · subst hempty
      rfl
    · simp only [steps, if_neg hempty, List.singleton_append, targets_check, targets_reserve,
        targets_append, targets_store, targets_nil, List.count_cons, List.count_append,
        List.count_nil, List.count_range_1', cost_ctr, hfields]
      grind
  | mat scrutinee arms =>
    have hscrutinee := (targets_steps_perm scrutinee base
      (base + (1 + 2 * arms.length))).count_eq address
    have harms := (targets_stepsOfArms_perm arms (base + 1)
      (base + (1 + 2 * arms.length) + scrutinee.cost)).count_eq address
    simp only [List.count_append, List.count_cons, List.count_range_1'] at hscrutinee harms
    simp only [steps, targets_check, targets_reserve, targets_append, targets_store, targets_nil,
      List.count_cons, List.count_append, List.count_nil, List.count_range_1', cost_mat,
      hscrutinee, harms]
    grind

theorem targets_stepsOfFields_perm (fields : List Tree) (start base : Nat) :
    (targets (stepsOfFields fields start base)).Perm
      (List.range' start fields.length ++ List.range' base (costOfFields fields)) := by
  rw [List.perm_iff_count]
  intro address
  cases fields with
  | nil => rfl
  | cons field fields =>
    have hfield := (targets_steps_perm field start base).count_eq address
    have hfields :=
      (targets_stepsOfFields_perm fields (start + 1) (base + field.cost)).count_eq address
    simp only [List.count_append, List.count_cons, List.count_range_1'] at hfield hfields
    simp only [stepsOfFields, targets_append, List.count_append, List.count_range_1',
      List.length_cons, costOfFields_cons, hfield, hfields]
    grind

theorem targets_stepsOfArms_perm (arms : List (UInt32 × Tree)) (start base : Nat) :
    (targets (stepsOfArms arms start base)).Perm
      (List.range' start (2 * arms.length) ++ List.range' base (costOfArms arms)) := by
  rw [List.perm_iff_count]
  intro address
  cases arms with
  | nil => rfl
  | cons arm arms =>
    obtain ⟨id, body⟩ := arm
    have hbody := (targets_steps_perm body (start + 1) base).count_eq address
    have harms :=
      (targets_stepsOfArms_perm arms (start + 2) (base + body.cost)).count_eq address
    simp only [List.count_append, List.count_cons, List.count_range_1'] at hbody harms
    simp only [stepsOfArms, targets_store, targets_append, List.count_cons, List.count_append,
      List.count_range_1', List.length_cons, costOfArms_cons, hbody, harms]
    grind

end

end Tree

/-! ## Blocks that follow each other -/

namespace Block

/-- Each block begins where the one before it ends. -/
def Consecutive : List Block → Nat → Nat → Prop
  | [], start, stop => start = stop
  | block :: blocks, start, stop =>
    block.start = start ∧ Consecutive blocks (start + block.length) stop

namespace Consecutive

variable {blocks others : List Block} {start middle stop : Nat}

theorem append (hblocks : Consecutive blocks start middle)
    (hothers : Consecutive others middle stop) : Consecutive (blocks ++ others) start stop := by
  induction blocks generalizing start with
  | nil =>
    cases hblocks
    exact hothers
  | cons block blocks ih => exact ⟨hblocks.1, ih hblocks.2⟩

theorem le (h : Consecutive blocks start stop) : start ≤ stop := by
  induction blocks generalizing start with
  | nil => exact Nat.le_of_eq h
  | cons block blocks ih => exact Nat.le_of_add_right_le (ih h.2)

theorem mem_iff (h : Consecutive blocks start stop) (address : Nat) :
    (∃ block ∈ blocks, address ∈ block) ↔ start ≤ address ∧ address < stop := by
  induction blocks generalizing start with
  | nil =>
    cases h
    simp
  | cons block blocks ih =>
    obtain ⟨rfl, hrest⟩ := h
    have hle := hrest.le
    have hsplit : (∃ other ∈ block :: blocks, address ∈ other) ↔
        address ∈ block ∨ ∃ other ∈ blocks, address ∈ other := by simp
    rw [hsplit, ih hrest, mem_def]
    omega

/-- Blocks that follow each other tile the cells from the first to the last. -/
theorem tile (h : Consecutive blocks start stop) : Tile blocks start stop := by
  refine ⟨?_, h.mem_iff⟩
  induction blocks generalizing start with
  | nil => exact List.Pairwise.nil
  | cons block blocks ih =>
    obtain ⟨rfl, hrest⟩ := h
    refine List.Pairwise.cons ?_ (ih hrest)
    intro other hother address hblock hmem
    have hbehind := (hrest.mem_iff address).mp ⟨other, hother, hmem⟩
    have hinside := mem_def.mp hblock
    omega

end Consecutive

end Block

namespace Tree

mutual

/-- The blocks of a term follow each other, from the first fresh cell to the last. -/
theorem consecutive_steps (tree : Tree) (host base : Nat) :
    Block.Consecutive (Mark.blocks (marks (tree.steps host base))) base (base + tree.cost) := by
  cases tree with
  | era | var name | u32 value => rfl
  | ref name id? => cases id? <;> rfl
  | lam name body =>
    have hbody := consecutive_steps body (base + 1) (base + 2)
    simp only [steps, marks_reserve, marks_bind, marks_append, marks_store, marks_nil,
      Mark.blocks_block, Mark.blocks_binder, List.append_nil, cost_lam, ← Nat.add_assoc]
    exact ⟨rfl, hbody⟩
  | app first second | sup label first second | op2 operator first second =>
    have hfirst := consecutive_steps first base (base + 2)
    have hsecond := consecutive_steps second (base + 1) (base + 2 + first.cost)
    simp only [steps, marks_check, marks_reserve, marks_append, marks_store, marks_nil,
      Mark.blocks_block, Mark.blocks_append, List.append_nil, cost_app, cost_sup, cost_op2,
      ← Nat.add_assoc]
    exact ⟨rfl, hfirst.append hsecond⟩
  | dup label first second value body =>
    have hvalue := consecutive_steps value (base + 2) (base + 3)
    have hbody := consecutive_steps body host (base + 3 + value.cost)
    simp only [steps, marks_check, marks_reserve, marks_bind, marks_append, Mark.blocks_block,
      Mark.blocks_binder, Mark.blocks_append, cost_dup, ← Nat.add_assoc]
    exact ⟨rfl, hvalue.append hbody⟩
  | ctr id fields =>
    have hfields := consecutive_stepsOfFields fields base (base + fields.length)
    by_cases hempty : fields = []
    · subst hempty
      exact hfields
    · simp only [steps, if_neg hempty, List.singleton_append, marks_check, marks_reserve,
        marks_append, marks_store, marks_nil, Mark.blocks_block, List.append_nil, cost_ctr,
        ← Nat.add_assoc]
      exact ⟨rfl, hfields⟩
  | mat scrutinee arms =>
    have hscrutinee := consecutive_steps scrutinee base (base + (1 + 2 * arms.length))
    have harms := consecutive_stepsOfArms arms (base + 1)
      (base + (1 + 2 * arms.length) + scrutinee.cost)
    simp only [steps, marks_check, marks_reserve, marks_append, marks_store, marks_nil,
      Mark.blocks_block, Mark.blocks_append, List.append_nil, cost_mat]
    have hstop : base + (1 + 2 * arms.length + scrutinee.cost + costOfArms arms) =
        base + (1 + 2 * arms.length) + scrutinee.cost + costOfArms arms := by omega
    rw [hstop]
    exact ⟨rfl, hscrutinee.append harms⟩

theorem consecutive_stepsOfFields (fields : List Tree) (address base : Nat) :
    Block.Consecutive (Mark.blocks (marks (stepsOfFields fields address base))) base
      (base + costOfFields fields) := by
  cases fields with
  | nil => rfl
  | cons field fields =>
    have hfield := consecutive_steps field address base
    have hfields := consecutive_stepsOfFields fields (address + 1) (base + field.cost)
    rw [stepsOfFields, marks_append, Mark.blocks_append, costOfFields_cons, ← Nat.add_assoc]
    exact hfield.append hfields

theorem consecutive_stepsOfArms (arms : List (UInt32 × Tree)) (address base : Nat) :
    Block.Consecutive (Mark.blocks (marks (stepsOfArms arms address base))) base
      (base + costOfArms arms) := by
  cases arms with
  | nil => rfl
  | cons arm arms =>
    obtain ⟨id, body⟩ := arm
    have hbody := consecutive_steps body (address + 1) base
    have harms := consecutive_stepsOfArms arms (address + 2) (base + body.cost)
    rw [stepsOfArms, marks_store, marks_append, Mark.blocks_append, costOfArms_cons,
      ← Nat.add_assoc]
    exact hbody.append harms

end

end Tree

end InteractionGraph
