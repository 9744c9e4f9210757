import InteractionGraph.Book.Basic
import InteractionGraph.Inject.Unit

/-!
# Writing the definitions of a book

Each definition is a unit: it is written into a cell that is handed out for it, with a scope
of its own.
-/

namespace InteractionGraph.Book

/-- Writes the definition of a given id into a fresh cell, and tells of it. -/
def injectLogged (book : Book) (id : UInt32) (heap : Heap) :
    Logged (EStateM.Result InjectError Heap Word) :=
  match book.definitions[id.toNat]? with
  | none => pure (.error (.unknownDefinition id) heap)
  | some (name, tree) =>
    match HeapAction.alloc 1 heap with
    | .error error heap => pure (.error error heap)
    | .ok host heap => do
      Logged.record (.injecting name host)
      tree.injectAtLogged host heap

/-- Writes the definition of a given id into a fresh cell. -/
def inject (book : Book) (id : UInt32) : HeapAction Word := fun heap =>
  (book.injectLogged id heap).value

/-- Writes the definitions of the given ids one after the other, up to the first that fails,
and tells of it. -/
def injectEachLogged (book : Book) :
    List UInt32 → Heap → Logged (EStateM.Result InjectError Heap (List Word))
  | [], heap => pure (.ok [] heap)
  | id :: ids, heap => do
    match ← book.injectLogged id heap with
    | .error error heap => return .error error heap
    | .ok root heap =>
      match ← injectEachLogged book ids heap with
      | .error error heap => return .error error heap
      | .ok roots heap => return .ok (root :: roots) heap

/-- The ids of all definitions, in order. -/
def allIds (book : Book) : List UInt32 := (List.range book.size).map UInt32.ofNat

/-- Writes all definitions in the order of their ids, up to the first that fails, and tells of
it. -/
def injectAllLogged (book : Book) (heap : Heap) :
    Logged (EStateM.Result InjectError Heap (List Word)) :=
  book.injectEachLogged book.allIds heap

/-- Writes all definitions in the order of their ids, up to the first that fails. -/
def injectAll (book : Book) : HeapAction (List Word) := fun heap =>
  (book.injectAllLogged heap).value

end InteractionGraph.Book
