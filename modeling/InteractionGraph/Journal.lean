import InteractionGraph.Report.Excerpt
import InteractionGraph.Word.Display

/-!
# The journal

Reading, linking and writing a program leave a record of what happened.  An `Event` is one
entry, with its level and its text, and `Logged α` is a value together with the events that
came before it, oldest first.
-/

namespace InteractionGraph

open Text

/-- How important an event is. -/
inductive Event.Level where
  | error
  | warn
  | debug
  | trace
  deriving DecidableEq

/-- Something that happened on the way to a result. -/
inductive Event where
  /-- A heap gave back all of its cells. -/
  | heapReset (cells : Nat)
  /-- A data block declares a constructor that has an id already. -/
  | constructorKept (block name : String) (id : UInt32)
  /-- Two constructors have the same id. -/
  | idShared (former name : String) (id : UInt32)
  /-- A data block was added to a table of constructors. -/
  | blockMerged (block : String) (constructors : Nat)
  /-- A book was read. -/
  | bookRead (blocks constructors definitions : Nat)
  /-- The references of a book were linked. -/
  | bookAssembled (definitions constructors : Nat)
  /-- A definition is about to be written into a heap. -/
  | injecting (name : String) (address : Nat)
  /-- A term was written into a heap. -/
  | injected (address : Nat) (root : Word) (size : Nat)
  /-- A text could not be read, and a stand-in took its place. -/
  | unreadable (report : Report)
  deriving DecidableEq

namespace Event

/-- The name of a level. -/
def Level.name : Level → String
  | error => "ERROR"
  | warn => "WARN"
  | debug => "DEBUG"
  | trace => "TRACE"

/-- The level of an event. -/
def level : Event → Level
  | heapReset .. | blockMerged .. | bookRead .. | bookAssembled .. => .debug
  | constructorKept .. | idShared .. => .warn
  | injecting .. | injected .. => .trace
  | unreadable _ => .error

private def address (n : Nat) : String := "0x" ++ String.ofList (hexadecimal n)

/-- The text of an event. -/
def message : Event → String
  | heapReset cells => "Resetting heap (" ++ toString cells ++ " cells in use)"
  | constructorKept block name id =>
    "Constructor `#" ++ name ++ "` of `" ++ block ++ "` is already declared with id " ++
      toString id.toNat ++ "; keeping it"
  | idShared former name id =>
    "Constructors `#" ++ former ++ "` and `#" ++ name ++ "` share id " ++ toString id.toNat
  | blockMerged block constructors =>
    "Merged data `" ++ block ++ "`: " ++ toString constructors ++ " constructors known"
  | bookRead blocks constructors definitions =>
    "Parsed " ++ toString blocks ++ " data blocks (" ++ toString constructors ++
      " constructors) and " ++ toString definitions ++ " definitions"
  | bookAssembled definitions constructors =>
    "Assembled book: " ++ toString definitions ++ " definitions, " ++ toString constructors ++
      " constructors"
  | injecting name host => "Injecting @" ++ name ++ " at " ++ address host
  | injected host root size =>
    "Injected unit at " ++ address host ++ ": " ++ root.text ++ ", heap size " ++ toString size
  | unreadable report => report.message ++ "\n" ++ report.excerpt

end Event

/-- A value and the events that led to it. -/
structure Logged (α : Type) where
  value : α
  events : List Event

namespace Logged

variable {α β : Type}

/-- A value that nothing led to. -/
protected def pure (value : α) : Logged α := ⟨value, []⟩

/-- A value that comes of another; the events of the other are older. -/
protected def bind (first : Logged α) (next : α → Logged β) : Logged β :=
  let second := next first.value
  ⟨second.value, first.events ++ second.events⟩

instance : Monad Logged where
  pure := Logged.pure
  bind := Logged.bind

instance : LawfulMonad Logged :=
  LawfulMonad.mk' Logged
    (fun _ => congrArg (Logged.mk _) (List.append_nil _))
    (fun _ _ => rfl)
    (fun _ _ _ => congrArg (Logged.mk _) (List.append_assoc _ _ _))

/-- Enters an event. -/
def record (event : Event) : Logged Unit := ⟨(), [event]⟩

@[simp]
theorem value_pure (value : α) : (pure value : Logged α).value = value := rfl

@[simp]
theorem value_bind (first : Logged α) (next : α → Logged β) :
    (first >>= next).value = (next first.value).value := rfl

end Logged

end InteractionGraph
