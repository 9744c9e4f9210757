import InteractionGraph.Book.Inject
import InteractionGraph.Settings.Basic

/-!
# Sessions

A `Session` is what someone works with who builds a graph step by step: a heap, an injector
that may be open, and the book that was read last.  `Session.step` carries out one command.

A command that fails does not end the session.  What it did to the heap and to the open
injector stays; the book stays as it was.
-/

namespace InteractionGraph

/-- A term that a command is given. -/
inductive TermSource where
  | tree (tree : Tree)
  /-- A text, to be read with the constructors of the current book. -/
  | text (text : String)

/-- What a session can be told to do. -/
inductive Session.Command where
  | alloc (count : Nat)
  | write (address : Nat) (word : Word)
  | read (address : Nat)
  | size
  | isEmpty
  | capacity
  | reset
  | injectRoot (source : TermSource)
  | injectAt (source : TermSource) (host : Nat)
  /-- Opens an injector, in place of one that is open. -/
  | openInjector
  /-- Writes a term with the scope of the open injector. -/
  | inject (source : TermSource) (host : Nat)
  /-- Closes the injector. -/
  | finish
  /-- Reads a book and makes it the current one. -/
  | readBook (text : String)
  | injectDefinition (id : UInt32)
  | injectAll

/-- What a session answers. -/
inductive Session.Answer where
  | done
  | address (address : Nat)
  | count (count : Nat)
  | capacity (cells : Nat)
  | truth (value : Bool)
  | word (word : Word)
  | words (words : List Word)

/-- Why a command was not carried out. -/
inductive Session.Failure where
  /-- The heap refused, or the term could not be written. -/
  | inject (error : InjectError)
  /-- The text of a term could not be read. -/
  | unreadable (report : Report)
  /-- A text gives no book. -/
  | book (error : Book.ReadError)
  /-- No injector is open. -/
  | noInjector

/-- A heap, the scope of the open injector and the current book. -/
structure Session where
  heap : Heap
  scope? : Option Scope
  book : Book

namespace Session

/-- A session with a heap, without an injector and with the empty book. -/
def new (heap : Heap) : Session := ⟨heap, none, .empty⟩

/-- The term that a command is given. -/
def resolve (session : Session) : TermSource → Except Report Tree
  | .tree tree => .ok tree
  | .text text => Tree.read session.book.constructors text

/-- What a command answers, and the session afterwards. -/
abbrev Reply : Type := Except Failure Answer × Session

/-- The reply of a command that changes nothing. -/
def answer (session : Session) (answer : Answer) : Reply := (.ok answer, session)

/-- The reply of a command that could not be carried out. -/
def refuse (session : Session) (failure : Failure) : Reply := (.error failure, session)

/-- The reply of a command that is a step on the heap. -/
def heapReply {α : Type} (session : Session) (answer : α → Answer) :
    EStateM.Result InjectError Heap α → Reply
  | .ok value heap => (.ok (answer value), { session with heap })
  | .error error heap => (.error (.inject error), { session with heap })

/-- Carries out a command that needs a term. -/
def withTree (session : Session) (source : TermSource)
    (next : Tree → Logged Reply) : Logged Reply :=
  match session.resolve source with
  | .ok tree => next tree
  | .error report => pure (session.refuse (.unreadable report))

/-- Writes a term with the scope of the open injector. -/
def injectOpen (session : Session) (tree : Tree) (host : Nat) : Reply :=
  match session.scope? with
  | none => session.refuse .noInjector
  | some scope =>
    match tree.inject host ⟨session.heap, scope⟩ with
    | .ok () injector =>
      (.ok .done, { session with heap := injector.heap, scope? := some injector.scope })
    | .error error injector =>
      (.error (.inject error),
        { session with heap := injector.heap, scope? := some injector.scope })

/-- Closes the injector. -/
def finishOpen (session : Session) : Reply :=
  match session.scope? with
  | none => session.refuse .noInjector
  | some scope =>
    let closed := { session with scope? := none }
    match Injector.finish ⟨session.heap, scope⟩ with
    | .ok () => closed.answer .done
    | .error error => closed.refuse (.inject error)

/-- Carries out a command, and tells of it. -/
def step (session : Session) : Command → Logged Reply
  | .alloc count =>
    pure (session.heapReply .address (HeapAction.alloc count session.heap))
  | .write address word =>
    pure (session.heapReply (fun _ => .done) (HeapAction.write address word session.heap))
  | .read address => pure (session.heapReply .word (HeapAction.read address session.heap))
  | .size => pure (session.answer (.count session.heap.size))
  | .isEmpty => pure (session.answer (.truth session.heap.isEmpty))
  | .capacity => pure (session.answer (.capacity session.heap.capacity))
  | .reset => do
    Logged.record (.heapReset session.heap.size)
    return (.ok .done, { session with heap := session.heap.reset })
  | .injectRoot source => session.withTree source fun tree => do
    return session.heapReply .word (← tree.injectRootLogged session.heap)
  | .injectAt source host => session.withTree source fun tree => do
    return session.heapReply .word (← tree.injectAtLogged host session.heap)
  | .openInjector => pure (.ok .done, { session with scope? := some .empty })
  | .inject source host => session.withTree source fun tree =>
    pure (session.injectOpen tree host)
  | .finish => pure session.finishOpen
  | .readBook text => do
    match ← Book.readLogged text with
    | .ok book => return (.ok (.count book.size), { session with book })
    | .error error => return session.refuse (.book error)
  | .injectDefinition id => do
    return session.heapReply .word (← session.book.injectLogged id session.heap)
  | .injectAll => do
    return session.heapReply .words (← session.book.injectAllLogged session.heap)

end Session

end InteractionGraph
