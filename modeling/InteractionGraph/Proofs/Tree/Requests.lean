import InteractionGraph.Inject.Basic
import InteractionGraph.Proofs.Tree.Nodes
import Mathlib.Algebra.BigOperators.Group.List.Basic

/-!
# What a term asks for

Every node of a term makes `Request`s when writing the term comes to it, before its parts make
theirs: a number has to fit in a label, a reference has to be linked, cells have to be handed out, a
name is bound or used.  `Tree.requests` lists them in the order in which they are made.

Three of the five kinds can be refused, and `firstError?` is the error of the first one that is.  It
only counts cells, so it knows nothing of the words that are written.  `firstError?_eq_none_iff`
says what it takes that nothing is refused.  A use is never refused: whether its name is bound can
only be told in the end, and is a property of the whole term, `Tree.Closed`.
-/

namespace InteractionGraph

/-- Something that a node asks for. -/
inductive Request where
  /-- A number has to fit in the label of a word. -/
  | label (tag : Tag) (value : Nat)
  /-- The definition that a reference stands for has to be known. -/
  | link (name : String)
  /-- Cells have to be handed out. -/
  | cells (count : Nat)
  /-- A name is bound. -/
  | bind (name : String)
  /-- A name is used. -/
  | use (name : String)
  deriving DecidableEq

namespace Request

/-- The error of a request that is refused by a heap with `used` cells. -/
def error? (capacity used : Nat) : Request → Option InjectError
  | label tag value => if Word.FitsLabel value then none else some (.labelOverflow tag value)
  | link name => some (.unresolvedReference name)
  | cells count =>
    if used + count ≤ capacity then none else some (.heap (.outOfMemory count used capacity))
  | bind _ | use _ => none

/-- The number of cells that a request is for. -/
def cellCount : Request → Nat
  | cells count => count
  | _ => 0

/-- A heap with room enough can meet the request: a number fits, and nothing has to be linked. -/
def Admissible : Request → Prop
  | label _ value => Word.FitsLabel value
  | link _ => False
  | cells _ | bind _ | use _ => True

/-- A request is refused if it is not admissible or there is no room for its cells. -/
theorem error?_eq_none_iff {capacity used : Nat} (request : Request) (hused : used ≤ capacity) :
    request.error? capacity used = none ↔
      request.Admissible ∧ used + request.cellCount ≤ capacity := by
  cases request with
  | label tag value => simp [error?, Admissible, cellCount, hused]
  | link name => simp [error?, Admissible]
  | cells count => simp [error?, Admissible, cellCount]
  | bind name | use name => simpa [error?, Admissible, cellCount] using hused

end Request

/-- The error of the first of some requests to a heap with `used` cells that is refused. -/
def firstError? (capacity : Nat) : Nat → List Request → Option InjectError
  | _, [] => none
  | used, request :: requests =>
    (request.error? capacity used).or (firstError? capacity (used + request.cellCount) requests)

/-- Nothing is refused if every request is admissible and there is room for all cells. -/
theorem firstError?_eq_none_iff {capacity used : Nat} {requests : List Request}
    (hused : used ≤ capacity) :
    firstError? capacity used requests = none ↔
      (∀ request ∈ requests, request.Admissible) ∧
        used + (requests.map Request.cellCount).sum ≤ capacity := by
  induction requests generalizing used with
  | nil => simpa [firstError?] using hused
  | cons request requests ih =>
    rw [firstError?, Option.or_eq_none_iff, Request.error?_eq_none_iff request hused,
      List.forall_mem_cons, List.map_cons, List.sum_cons, ← Nat.add_assoc]
    constructor
    · rintro ⟨⟨hadmissible, hroom⟩, hrest⟩
      obtain ⟨hothers, hall⟩ := (ih hroom).mp hrest
      exact ⟨⟨hadmissible, hothers⟩, hall⟩
    · rintro ⟨⟨hadmissible, hothers⟩, hall⟩
      have hroom : used + request.cellCount ≤ capacity := by omega
      exact ⟨⟨hadmissible, hroom⟩, (ih hroom).mpr ⟨hothers, hall⟩⟩

namespace Tree

/-- What a node asks for itself. -/
def ownRequests : Tree → List Request
  | .era | .u32 _ => []
  | .lam name _ => [.cells 2, .bind name]
  | .app _ _ | .op2 _ _ _ => [.cells 2]
  | .sup label _ _ => [.label .sup label.toNat, .cells 2]
  | .dup label first second _ _ =>
    [.label .dp0 label.toNat, .cells 3, .bind first, .bind second]
  | .ref name none => [.link name]
  | .ref _ (some _) => []
  | .var name => [.use name]
  | .ctr id fields =>
    .label .ctr id.toNat :: if fields = [] then [] else [.cells fields.length]
  | .mat _ arms => [.label .mat arms.length, .cells (1 + 2 * arms.length)]

/-- What all nodes of a term ask for. -/
def requests (tree : Tree) : List Request := tree.nodes.flatMap ownRequests

/-! ## What it takes that nothing is refused -/

/-- The number that a node puts into the label of a word, and the tag it is reported with. -/
def numbered? : Tree → Option (Tag × Nat)
  | .sup label _ _ => some (.sup, label.toNat)
  | .dup label _ _ _ _ => some (.dp0, label.toNat)
  | .ctr id _ => some (.ctr, id.toNat)
  | .mat _ arms => some (.mat, arms.length)
  | _ => none

/-- The labels, the constructor ids and the numbers of arms fit in the label of a word. -/
def LabelsFit (tree : Tree) : Prop :=
  ∀ node ∈ tree.nodes, ∀ tag value, node.numbered? = some (tag, value) → Word.FitsLabel value

/-- Every reference carries the id of its definition. -/
def Linked (tree : Tree) : Prop := ∀ name, .ref name none ∉ tree.nodes

/-- Every name that is used is bound somewhere, before or behind the use and around it or not. -/
def Closed (tree : Tree) : Prop := ∀ name, tree.Uses name → tree.Binds name

/-- What a node asks for is admissible if its number fits and it is no reference without an id. -/
theorem admissible_ownRequests_iff {node : Tree} :
    (∀ request ∈ node.ownRequests, request.Admissible) ↔
      (∀ tag value, node.numbered? = some (tag, value) → Word.FitsLabel value) ∧
        ∀ name, node ≠ .ref name none := by
  cases node with
  | ref name id? => cases id? <;> simp [ownRequests, numbered?, Request.Admissible]
  | ctr id fields =>
    by_cases hempty : fields = [] <;>
      simp [ownRequests, numbered?, Request.Admissible, hempty]
  | _ => simp [ownRequests, numbered?, Request.Admissible]

theorem bind_mem_ownRequests_iff {node : Tree} {name : String} :
    .bind name ∈ node.ownRequests ↔ name ∈ node.boundNames := by
  cases node with
  | ref other id? => cases id? <;> simp [ownRequests, boundNames]
  | ctr id fields => by_cases hempty : fields = [] <;> simp [ownRequests, boundNames, hempty]
  | _ => simp [ownRequests, boundNames]

theorem use_mem_ownRequests_iff {node : Tree} {name : String} :
    .use name ∈ node.ownRequests ↔ node = .var name := by
  cases node with
  | ref other id? => cases id? <;> simp [ownRequests]
  | ctr id fields => by_cases hempty : fields = [] <;> simp [ownRequests, hempty]
  | _ => simp [ownRequests, eq_comm]

/-- A node asks for as many cells as it takes for itself. -/
theorem sum_cellCount_ownRequests (node : Tree) :
    (node.ownRequests.map Request.cellCount).sum = node.blockSize := by
  cases node with
  | ref name id? => cases id? <;> simp [ownRequests, blockSize, Request.cellCount]
  | ctr id fields =>
    by_cases hempty : fields = [] <;> simp [ownRequests, blockSize, Request.cellCount, hempty]
  | _ => simp [ownRequests, blockSize, Request.cellCount]

variable {tree : Tree} {name : String}

theorem bind_mem_requests_iff : .bind name ∈ tree.requests ↔ tree.Binds name := by
  simp only [requests, List.mem_flatMap, bind_mem_ownRequests_iff, Binds]

theorem use_mem_requests_iff : .use name ∈ tree.requests ↔ tree.Uses name := by
  simp only [requests, List.mem_flatMap, use_mem_ownRequests_iff, exists_eq_right, Uses]

theorem admissible_requests_iff :
    (∀ request ∈ tree.requests, request.Admissible) ↔ tree.LabelsFit ∧ tree.Linked := by
  have hnodes : (∀ request ∈ tree.requests, request.Admissible) ↔
      ∀ node ∈ tree.nodes, ∀ request ∈ node.ownRequests, request.Admissible := by
    simp only [requests, List.mem_flatMap, forall_exists_index, and_imp]
    exact ⟨fun h node hnode request hrequest => h request node hnode hrequest,
      fun h request node hnode hrequest => h node hnode request hrequest⟩
  simp only [hnodes, admissible_ownRequests_iff, LabelsFit, Linked]
  constructor
  · intro h
    exact ⟨fun node hnode => (h node hnode).1, fun name hmem => (h _ hmem).2 name rfl⟩
  · rintro ⟨hfit, hlinked⟩ node hnode
    refine ⟨hfit node hnode, ?_⟩
    rintro name rfl
    exact hlinked name hnode

theorem sum_cellCount_requests (tree : Tree) :
    (tree.requests.map Request.cellCount).sum = tree.cost := by
  rw [requests, cost, List.map_flatMap, List.flatMap, List.sum_flatten, List.map_map]
  simp only [Function.comp_def, sum_cellCount_ownRequests]

/-- Nothing that a term asks for is refused if its labels fit, it is linked and there is room for
its cells. -/
theorem firstError?_requests_eq_none_iff {capacity used : Nat} (hused : used ≤ capacity) :
    firstError? capacity used tree.requests = none ↔
      tree.LabelsFit ∧ tree.Linked ∧ used + tree.cost ≤ capacity := by
  rw [firstError?_eq_none_iff hused, sum_cellCount_requests, admissible_requests_iff, and_assoc]

end Tree

end InteractionGraph
