import InteractionGraph.Tree.Basic
import Mathlib.Algebra.Ring.Nat

/-!
# The nodes of a term

`Tree.nodes` lists the nodes of a term, each as the subterm it is the root of, in the order in
which writing a term comes to them: a node before its parts, the value of a duplication before
its body, the scrutinee of a match before the arms.

What a term asks of a heap is said node by node: `Tree.blockSize` is the number of cells that a
node takes for itself, and `Tree.cost` adds them up.  `Tree.boundNames` are the names that a node
binds.
-/

namespace InteractionGraph.Tree

mutual

/-- The nodes of a term, a node before its parts. -/
def nodes : Tree → List Tree
  | .era => [.era]
  | .lam name body => .lam name body :: body.nodes
  | .app function argument => .app function argument :: (function.nodes ++ argument.nodes)
  | .sup label left right => .sup label left right :: (left.nodes ++ right.nodes)
  | .dup label first second value body =>
    .dup label first second value body :: (value.nodes ++ body.nodes)
  | .ref name id? => [.ref name id?]
  | .var name => [.var name]
  | .ctr id fields => .ctr id fields :: nodesOfFields fields
  | .mat scrutinee arms => .mat scrutinee arms :: (scrutinee.nodes ++ nodesOfArms arms)
  | .op2 operator left right => .op2 operator left right :: (left.nodes ++ right.nodes)
  | .u32 value => [.u32 value]

/-- The nodes of the fields of a constructor. -/
def nodesOfFields : List Tree → List Tree
  | [] => []
  | field :: fields => field.nodes ++ nodesOfFields fields

/-- The nodes of the arms of a match. -/
def nodesOfArms : List (UInt32 × Tree) → List Tree
  | [] => []
  | (_, body) :: arms => body.nodes ++ nodesOfArms arms

end

theorem self_mem_nodes (tree : Tree) : tree ∈ tree.nodes := by
  cases tree <;> exact List.mem_cons_self

/-- The nodes of the fields are those of each of them. -/
theorem mem_nodesOfFields {node : Tree} {fields : List Tree} :
    node ∈ nodesOfFields fields ↔ ∃ field ∈ fields, node ∈ field.nodes := by
  induction fields with
  | nil => simp [nodesOfFields]
  | cons field fields ih => simp [nodesOfFields, ih]

/-- The nodes of the arms are those of the body of each of them. -/
theorem mem_nodesOfArms {node : Tree} {arms : List (UInt32 × Tree)} :
    node ∈ nodesOfArms arms ↔ ∃ arm ∈ arms, node ∈ arm.2.nodes := by
  induction arms with
  | nil => simp [nodesOfArms]
  | cons arm arms ih =>
    obtain ⟨id, body⟩ := arm
    simp [nodesOfArms, ih]

/-! ## Cells -/

/-- The number of cells that a node takes for itself. -/
def blockSize : Tree → Nat
  | .lam _ _ | .app _ _ | .sup _ _ _ | .op2 _ _ _ => 2
  | .dup _ _ _ _ _ => 3
  | .ctr _ fields => fields.length
  | .mat _ arms => 1 + 2 * arms.length
  | .era | .ref _ _ | .var _ | .u32 _ => 0

/-- The number of cells that a term takes, its host cell not counted. -/
def cost (tree : Tree) : Nat := (tree.nodes.map blockSize).sum

/-- The number of cells that the fields of a constructor take behind the block they start in. -/
def costOfFields (fields : List Tree) : Nat := ((nodesOfFields fields).map blockSize).sum

/-- The number of cells that the arms of a match take behind the block they start in. -/
def costOfArms (arms : List (UInt32 × Tree)) : Nat := ((nodesOfArms arms).map blockSize).sum

@[simp]
theorem cost_era : cost .era = 0 := rfl

@[simp]
theorem cost_lam (name : String) (body : Tree) : (lam name body).cost = 2 + body.cost := by
  simp [cost, nodes, blockSize]

@[simp]
theorem cost_app (function argument : Tree) :
    (app function argument).cost = 2 + function.cost + argument.cost := by
  simp [cost, nodes, blockSize, Nat.add_assoc]

@[simp]
theorem cost_sup (label : UInt32) (left right : Tree) :
    (sup label left right).cost = 2 + left.cost + right.cost := by
  simp [cost, nodes, blockSize, Nat.add_assoc]

@[simp]
theorem cost_dup (label : UInt32) (first second : String) (value body : Tree) :
    (dup label first second value body).cost = 3 + value.cost + body.cost := by
  simp [cost, nodes, blockSize, Nat.add_assoc]

@[simp]
theorem cost_ref (name : String) (id? : Option UInt32) : (ref name id?).cost = 0 := rfl

@[simp]
theorem cost_var (name : String) : (var name).cost = 0 := rfl

@[simp]
theorem cost_ctr (id : UInt32) (fields : List Tree) :
    (ctr id fields).cost = fields.length + costOfFields fields := by
  simp [cost, costOfFields, nodes, blockSize]

@[simp]
theorem cost_mat (scrutinee : Tree) (arms : List (UInt32 × Tree)) :
    (mat scrutinee arms).cost = 1 + 2 * arms.length + scrutinee.cost + costOfArms arms := by
  simp [cost, costOfArms, nodes, blockSize, Nat.add_assoc]

@[simp]
theorem cost_op2 (operator : Operator) (left right : Tree) :
    (op2 operator left right).cost = 2 + left.cost + right.cost := by
  simp [cost, nodes, blockSize, Nat.add_assoc]

@[simp]
theorem cost_u32 (value : UInt32) : (u32 value).cost = 0 := rfl

@[simp]
theorem costOfFields_nil : costOfFields [] = 0 := rfl

@[simp]
theorem costOfFields_cons (field : Tree) (fields : List Tree) :
    costOfFields (field :: fields) = field.cost + costOfFields fields := by
  simp [cost, costOfFields, nodesOfFields]

@[simp]
theorem costOfArms_nil : costOfArms [] = 0 := rfl

@[simp]
theorem costOfArms_cons (id : UInt32) (body : Tree) (arms : List (UInt32 × Tree)) :
    costOfArms ((id, body) :: arms) = body.cost + costOfArms arms := by
  simp [cost, costOfArms, nodesOfArms]

/-! ## Names -/

/-- The names that a node binds. -/
def boundNames : Tree → List String
  | .lam name _ => [name]
  | .dup _ first second _ _ => [first, second]
  | _ => []

/-- Some node of the term is a use of the name. -/
def Uses (tree : Tree) (name : String) : Prop := .var name ∈ tree.nodes

/-- Some node of the term binds the name, wherever it is. -/
def Binds (tree : Tree) (name : String) : Prop := ∃ node ∈ tree.nodes, name ∈ node.boundNames

end InteractionGraph.Tree
