import InteractionGraph.Word.Operator

/-!
# Terms as trees

`Tree` is the abstract form of a term: what reading a text gives and what is written into a
heap.  Variables are plain strings and are never renamed; which binder a use belongs to is
settled by the order in which a tree is written, not by its shape.

The arms of a match carry the id of the constructor they are for.  `Tree.matching` orders
them by id and keeps the given order among arms of the same id.  The arm that takes every
other constructor has an id as well, `Tree.wildcard`, and its place is given by that id like
the place of any other arm.  An id is any number of 32 bits, and `Tree.wildcard` is one of 28:
the arms with greater ids come after it.
-/

namespace InteractionGraph

/-- A term. -/
inductive Tree where
  /-- Erasure. -/
  | era
  /-- A lambda that binds `name` in `body`. -/
  | lam (name : String) (body : Tree)
  /-- An application of `function` to `argument`. -/
  | app (function argument : Tree)
  /-- A superposition of two terms. -/
  | sup (label : UInt32) (left right : Tree)
  /-- A duplication of `value`, whose two copies are bound to names in `body`. -/
  | dup (label : UInt32) (first second : String) (value body : Tree)
  /-- A reference to a definition, and the id of the definition once it is known. -/
  | ref (name : String) (id? : Option UInt32)
  /-- A use of a variable. -/
  | var (name : String)
  /-- A constructor applied to all of its fields. -/
  | ctr (id : UInt32) (fields : List Tree)
  /-- A match on `scrutinee`, with arms that go by constructor ids. -/
  | mat (scrutinee : Tree) (arms : List (UInt32 × Tree))
  /-- A binary operator applied to both operands. -/
  | op2 (operator : Operator) (left right : Tree)
  /-- An inline integer. -/
  | u32 (value : UInt32)
  deriving Inhabited

namespace Tree

/-- The id of the arm of a match that takes every constructor without an arm of its own. -/
def wildcard : UInt32 := 0xfffffff

/-- The arms of a match in the order of their ids; arms of the same id keep their order. -/
def sortArms (arms : List (UInt32 × Tree)) : List (UInt32 × Tree) :=
  arms.mergeSort fun first second => first.1 ≤ second.1

/-- The match on `scrutinee` with the given arms in order. -/
def matching (scrutinee : Tree) (arms : List (UInt32 × Tree)) : Tree :=
  mat scrutinee (sortArms arms)

/-- The name of the reference that stands for a term that could not be read. -/
def failureName : String := "⊥"

/-- The term that takes the place of one that could not be read. -/
def failure : Tree := ref failureName none

/-- Whether a term takes the place of one that could not be read. -/
def isFailure : Tree → Bool
  | ref name none => name == failureName
  | _ => false

/-- The application of a term to several arguments, one after the other. -/
def applyAll (function : Tree) (arguments : List Tree) : Tree :=
  arguments.foldl app function

theorem sortArms_perm (arms : List (UInt32 × Tree)) : (sortArms arms).Perm arms :=
  List.mergeSort_perm arms _

theorem isFailure_failure : failure.isFailure = true := by
  simp [failure, isFailure]

end Tree

end InteractionGraph
