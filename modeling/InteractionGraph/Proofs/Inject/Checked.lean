import InteractionGraph.Proofs.Inject.Reached

/-!
# Addresses that are computed

Addresses are natural numbers here, and the address of a part is the one of its node plus its place.
In 64 bits such a sum might wrap around, and a wrong place would name a cell of another node.
`Tree.injectChecked` writes a term as `Tree.inject` does, but looks at each number that it computes:
it has to fit in 64 bits, and an address has to be that of a cell of the node at hand.

`Tree.agrees_inject` says that it never finds anything.  All of that follows from one bound: the
cells of a node were handed out below the capacity of the heap, and no step changes the capacity.
With the errors that never occur (`Tree.inject_safe`), this makes up `Injector.never_faults`.
-/

namespace InteractionGraph

open Injection Step

/-! ## Checked numbers -/

/-- Why a run with checks ends early. -/
inductive Stop where
  /-- A step failed. -/
  | failed (error : InjectError)
  /-- A number does not fit in 64 bits, or an address is none of the cells of its node. -/
  | astray
  deriving DecidableEq

/-- A step with checks. -/
abbrev Checked (σ α : Type) : Type := EStateM Stop σ α

namespace Checked

variable {σ α β : Type}

/-- A step that computes no number. -/
def of (action : EStateM InjectError σ α) : Checked σ α := EStateM.adaptExcept .failed action

/-- A number that was computed. -/
def number (value : Nat) : Checked Injector Nat :=
  if value < UInt64.size then pure value else throw .astray

/-- The address of a cell of a node, that was computed. -/
def cell (node : Block) (address : Nat) : Checked Injector Nat :=
  if address < UInt64.size ∧ node.start ≤ address ∧ address < node.start + node.length then
    pure address
  else throw .astray

/-- Hands out the cells of a node. -/
def reserve (count : Nat) : Checked Injector Block := do
  let start ← of (alloc count)
  return ⟨start, count⟩

/-- A step of writing terms with a scope of its own. -/
def withScope (checked : Checked Injector α) : Checked Heap α := fun heap =>
  match checked (.new heap) with
  | .error stop injector => .error stop injector.heap
  | .ok value injector =>
    match injector.finish with
    | .error error => .error (.failed error) injector.heap
    | .ok () => .ok value injector.heap

end Checked

open Checked

namespace Tree

mutual

/-- Writes a term into the cell `host`, with checks. -/
def injectChecked : Tree → Nat → Checked Injector Unit
  | .era, host => of (write host Word.era)
  | .lam name body, host => do
    let node ← reserve 2
    let use ← of (encode .var 0 node.start)
    of (bindName name node.start use)
    let inside ← cell node (node.start + 1)
    injectChecked body inside
    of (writeNode host .lam 0 node.start)
  | .app function argument, host => do
    let node ← reserve 2
    injectChecked function node.start
    let second ← cell node (node.start + 1)
    injectChecked argument second
    of (writeNode host .app 0 node.start)
  | .sup label left right, host => do
    of (checkLabel .sup label.toNat)
    let node ← reserve 2
    injectChecked left node.start
    let second ← cell node (node.start + 1)
    injectChecked right second
    of (writeNode host .sup label.toNat node.start)
  | .dup label first second value body, host => do
    of (checkLabel .dp0 label.toNat)
    let node ← reserve 3
    let use ← of (encode .dp0 label.toNat node.start)
    of (bindName first node.start use)
    let slot ← cell node (node.start + 1)
    let use ← of (encode .dp1 label.toNat node.start)
    of (bindName second slot use)
    let shared ← cell node (node.start + 2)
    injectChecked value shared
    injectChecked body host
  | .ref name id?, host =>
    match id? with
    | some id => of (writeNode host .ref 0 id.toNat)
    | none => of (throw (.unresolvedReference name))
  | .var name, host => of (useName name host)
  | .ctr id fields, host => do
    of (checkLabel .ctr id.toNat)
    let node ← if fields.isEmpty then pure ⟨0, 0⟩ else reserve fields.length
    injectFieldsChecked fields node 0
    of (writeNode host .ctr id.toNat node.start)
  | .mat scrutinee arms, host => do
    of (checkLabel .mat arms.length)
    let pairs ← number (2 * arms.length)
    let count ← number (1 + pairs)
    let node ← reserve count
    injectChecked scrutinee node.start
    injectArmsChecked arms node 0
    of (writeNode host .mat arms.length node.start)
  | .op2 operator left right, host => do
    let node ← reserve 2
    injectChecked left node.start
    let second ← cell node (node.start + 1)
    injectChecked right second
    of (writeNode host .opx operator.code node.start)
  | .u32 value, host => of (writeNode host .w32 0 value.toNat)

/-- Writes the fields of a constructor, with checks, the first of them into the cell `place` of the
node. -/
def injectFieldsChecked : List Tree → Block → Nat → Checked Injector Unit
  | [], _, _ => pure ()
  | field :: fields, node, place => do
    let address ← cell node (node.start + place)
    injectChecked field address
    injectFieldsChecked fields node (place + 1)

/-- Writes the arms of a match, with checks, the first of them into the pair of cells `place` behind
the scrutinee. -/
def injectArmsChecked : List (UInt32 × Tree) → Block → Nat → Checked Injector Unit
  | [], _, _ => pure ()
  | (id, body) :: arms, node, place => do
    let pairs ← number (node.start + 1)
    let offset ← number (2 * place)
    let address ← cell node (pairs + offset)
    of (writeNode address .w32 0 id.toNat)
    let inside ← cell node (address + 1)
    injectChecked body inside
    injectArmsChecked arms node (place + 1)

end

/-- Writes a unit into the cell `host`, with checks. -/
def injectAtChecked (tree : Tree) (host : Nat) : Checked Heap Word := do
  withScope (tree.injectChecked host)
  of (HeapAction.read host)

/-- Writes a term that stands alone, with checks. -/
def injectRootChecked (tree : Tree) : Checked Heap Word := do
  of reserveRoot
  tree.injectAtChecked rootAddress

end Tree

namespace Book

/-- Writes the definition of a given id, with checks. -/
def injectChecked (book : Book) (id : UInt32) : Checked Heap Word :=
  match book.definitions[id.toNat]? with
  | none => of (throw (.unknownDefinition id))
  | some (_, tree) => do
    let host ← of (HeapAction.alloc 1)
    tree.injectAtChecked host

/-- Writes the definitions of the given ids, with checks. -/
def injectEachChecked (book : Book) : List UInt32 → Checked Heap (List Word)
  | [] => pure []
  | id :: ids => do
    let root ← book.injectChecked id
    let roots ← injectEachChecked book ids
    return root :: roots

end Book

/-! ## Runs that agree -/

/-- The injection does not change the capacity of the heap. -/
def KeepsCapacity {α : Type} (injection : Injection α) : Prop :=
  ∀ {injector value left}, injection injector = .ok value left →
    left.heap.capacity = injector.heap.capacity

theorem keepsCapacity_follows {injection : Injection Unit} {steps : Nat → List Step}
    (h : ∀ size, Follows injection (steps size) size) : KeepsCapacity injection := by
  intro injector value left hrun
  rw [h injector.heap.size injector rfl] at hrun
  rw [(performAll_eq_ok_iff.mp hrun).2, capacity_effectAll]

theorem keepsCapacity_encode (tag : Tag) (label payload : Nat) :
    KeepsCapacity (encode tag label payload) := by
  intro injector word left hrun
  obtain ⟨-, -, rfl⟩ := encode_eq_ok_iff.mp hrun
  rfl

theorem keepsCapacity_bindName (name : String) (slot : Nat) (word : Word) :
    KeepsCapacity (bindName name slot word) := by
  intro injector done left hrun
  obtain ⟨-, rfl⟩ := bindName_eq_ok_iff.mp hrun
  exact Heap.capacity_setAll _ _

theorem keepsCapacity_writeNode (host : Nat) (tag : Tag) (label payload : Nat) :
    KeepsCapacity (writeNode host tag label payload) := by
  intro injector done left hrun
  obtain ⟨-, -, rfl⟩ := writeNode_eq_ok_iff.mp hrun
  rfl

/-- Where addresses fit in payloads, the run with checks does what the one without does. -/
def Agrees {α : Type} (checked : Checked Injector α) (plain : Injection α) : Prop :=
  ∀ injector : Injector, injector.heap.capacity ≤ Word.payloadLimit →
    checked injector = Checked.of plain injector

theorem Checked.of_congr {σ α : Type} {plain other : EStateM InjectError σ α} {state left : σ}
    (h : plain state = other left) : Checked.of plain state = Checked.of other left := by
  unfold Checked.of EStateM.adaptExcept
  rw [h]

namespace Agrees

variable {α β : Type} {checked : Checked Injector α} {plain : Injection α}

theorem of (plain : Injection α) : Agrees (Checked.of plain) plain := fun _ _ => rfl

theorem pure (value : α) : Agrees (Pure.pure value) (Pure.pure value) := fun _ _ => rfl

/-- The second run may rely on the first having succeeded. -/
theorem bind {next : α → Checked Injector β} {others : α → Injection β}
    (hfirst : Agrees checked plain) (hkeeps : KeepsCapacity plain)
    (hnext : ∀ injector value left, injector.heap.capacity ≤ Word.payloadLimit →
      plain injector = .ok value left → Agrees (next value) (others value)) :
    Agrees (checked >>= next) (plain >>= others) := by
  intro injector hcapacity
  have hrun := hfirst injector hcapacity
  unfold Checked.of EStateM.adaptExcept at hrun
  cases hplain : plain injector with
  | ok value left =>
    rw [hplain] at hrun
    have hleft : left.heap.capacity ≤ Word.payloadLimit := by
      rw [hkeeps hplain]
      exact hcapacity
    rw [bind_of_ok hrun, hnext injector value left hcapacity hplain left hleft]
    exact (Checked.of_congr (bind_of_ok hplain)).symm
  | error error left =>
    rw [hplain] at hrun
    rw [bind_of_error hrun]
    unfold Checked.of EStateM.adaptExcept
    rw [bind_of_error hplain]

theorem seq {next : Checked Injector β} {others : Injection β} {first : Checked Injector Unit}
    {second : Injection Unit} (hfirst : Agrees first second) (hkeeps : KeepsCapacity second)
    (hnext : Agrees next others) :
    Agrees (first >>= fun _ => next) (second >>= fun _ => others) :=
  hfirst.bind hkeeps fun _ _ _ _ _ => hnext

/-- What follows a check may rely on it. -/
theorem check {tag : Tag} {value : Nat} (h : Word.FitsLabel value → Agrees checked plain) :
    Agrees (Checked.of (checkLabel tag value) >>= fun _ => checked)
      (checkLabel tag value >>= fun _ => plain) := by
  refine (of _).bind ?_ ?_
  · intro injector done left hrun
    rw [(checkLabel_eq_ok_iff.mp hrun).2]
  · intro injector done left _ hrun
    exact h (checkLabel_eq_ok_iff.mp hrun).1

/-- The cells that are handed out for a node lie below the capacity. -/
theorem reserve {count : Nat} {next : Block → Checked Injector β} {others : Nat → Injection β}
    (hnext : ∀ start, start + count ≤ Word.payloadLimit →
      Agrees (next ⟨start, count⟩) (others start)) :
    Agrees (Checked.reserve count >>= next) (alloc count >>= others) := by
  rw [Checked.reserve, bind_assoc]
  simp only [pure_bind]
  refine (of _).bind ?_ ?_
  · intro injector address left hrun
    obtain ⟨-, -, rfl⟩ := alloc_eq_ok_iff.mp hrun
    rfl
  · intro injector address left hcapacity hrun
    obtain ⟨hroom, rfl, -⟩ := alloc_eq_ok_iff.mp hrun
    exact hnext _ (Nat.le_trans hroom hcapacity)

/-- A binder, whose word is put together before. -/
theorem bindName {name : String} {slot label node : Nat} {tag : Tag}
    (h : Agrees checked plain) :
    Agrees (Checked.of (encode tag label node) >>= fun use =>
        Checked.of (Injection.bindName name slot use) >>= fun _ => checked)
      (encode tag label node >>= fun use => Injection.bindName name slot use >>= fun _ => plain) :=
  (of _).bind (keepsCapacity_encode tag label node) fun _ use _ _ _ =>
    (of _).seq (keepsCapacity_bindName name slot use) h

end Agrees

/-! ## Checks that find nothing -/

theorem Checked.number_bind {β : Type} {value : Nat} (next : Nat → Checked Injector β)
    (h : value < UInt64.size) : (number value >>= next) = next value := by
  rw [number, if_pos h, pure_bind]

/-- Below the capacity of a heap, no address is too large for 64 bits. -/
theorem Checked.cell_bind {β : Type} {start length place : Nat} (next : Nat → Checked Injector β)
    (hroom : start + length ≤ Word.payloadLimit) (hplace : place < length) :
    (cell ⟨start, length⟩ (start + place) >>= next) = next (start + place) := by
  have hlimit : Word.payloadLimit ≤ UInt64.size := by decide
  rw [cell, if_pos (by simp only; omega), pure_bind]

namespace Tree

theorem keepsCapacity_inject (tree : Tree) (host : Nat) : KeepsCapacity (tree.inject host) :=
  keepsCapacity_follows fun size => follows_inject tree host size

theorem keepsCapacity_injectFields (fields : List Tree) (address : Nat) :
    KeepsCapacity (injectFields fields address) :=
  keepsCapacity_follows fun size => follows_injectFields fields address size

theorem keepsCapacity_injectArms (arms : List (UInt32 × Tree)) (address : Nat) :
    KeepsCapacity (injectArms arms address) :=
  keepsCapacity_follows fun size => follows_injectArms arms address size

mutual

theorem agrees_inject (tree : Tree) (host : Nat) :
    Agrees (tree.injectChecked host) (tree.inject host) := by
  cases tree with
  | era =>
    rw [injectChecked, inject]
    exact .of _
  | lam name body =>
    rw [injectChecked, inject]
    refine .reserve fun start hroom => .bindName ?_
    rw [cell_bind _ hroom (by decide)]
    exact (agrees_inject body _).seq (keepsCapacity_inject body _) (.of _)
  | app function argument =>
    rw [injectChecked, inject]
    refine .reserve fun start hroom => (agrees_inject function _).seq
      (keepsCapacity_inject function _) ?_
    rw [cell_bind _ hroom (by decide)]
    exact (agrees_inject argument _).seq (keepsCapacity_inject argument _) (.of _)
  | sup label left right =>
    rw [injectChecked, inject]
    refine .check fun _ => .reserve fun start hroom => (agrees_inject left _).seq
      (keepsCapacity_inject left _) ?_
    rw [cell_bind _ hroom (by decide)]
    exact (agrees_inject right _).seq (keepsCapacity_inject right _) (.of _)
  | dup label first second value body =>
    rw [injectChecked, inject]
    refine .check fun _ => .reserve fun start hroom => .bindName ?_
    rw [cell_bind _ hroom (by decide)]
    refine .bindName ?_
    rw [cell_bind _ hroom (by decide)]
    exact (agrees_inject value _).seq (keepsCapacity_inject value _) (agrees_inject body _)
  | ref name id? =>
    cases id? with
    | none =>
      rw [injectChecked, inject]
      exact .of _
    | some id =>
      rw [injectChecked, inject]
      exact .of _
  | var name =>
    rw [injectChecked, inject]
    exact .of _
  | ctr id fields =>
    rw [injectChecked, inject]
    refine .check fun _ => ?_
    rcases fields with _ | ⟨field, fields⟩
    · simp only [List.isEmpty_nil, if_true, pure_bind, injectFields, injectFieldsChecked]
      exact .of _
    · simp only [List.isEmpty_cons, Bool.false_eq_true, if_false]
      refine .reserve fun start hroom => ?_
      have hfields := agrees_injectFields (field :: fields) 0 hroom (Nat.le_of_eq (Nat.zero_add _))
      exact hfields.seq (keepsCapacity_injectFields _ _) (.of _)
  | mat scrutinee arms =>
    rw [injectChecked, inject]
    refine .check fun hfits => ?_
    have hlimit : 2 * Word.labelLimit < UInt64.size := by decide
    unfold Word.FitsLabel at hfits
    rw [number_bind _ (by omega), number_bind _ (by omega)]
    refine .reserve fun start hroom => (agrees_inject scrutinee _).seq
      (keepsCapacity_inject scrutinee _) ?_
    have harms := agrees_injectArms arms 0 hroom (by omega)
    exact harms.seq (keepsCapacity_injectArms _ _) (.of _)
  | op2 operator left right =>
    rw [injectChecked, inject]
    refine .reserve fun start hroom => (agrees_inject left _).seq
      (keepsCapacity_inject left _) ?_
    rw [cell_bind _ hroom (by decide)]
    exact (agrees_inject right _).seq (keepsCapacity_inject right _) (.of _)
  | u32 value =>
    rw [injectChecked, inject]
    exact .of _

theorem agrees_injectFields (fields : List Tree) (place : Nat) {start length : Nat}
    (hroom : start + length ≤ Word.payloadLimit) (hplace : place + fields.length ≤ length) :
    Agrees (injectFieldsChecked fields ⟨start, length⟩ place)
      (injectFields fields (start + place)) := by
  cases fields with
  | nil =>
    rw [injectFieldsChecked, injectFields]
    exact .pure ()
  | cons field fields =>
    rw [List.length_cons] at hplace
    rw [injectFieldsChecked, injectFields, cell_bind _ hroom (by omega)]
    exact (agrees_inject field _).seq (keepsCapacity_inject field _)
      (agrees_injectFields fields (place + 1) hroom (by omega))

theorem agrees_injectArms (arms : List (UInt32 × Tree)) (place : Nat) {start length : Nat}
    (hroom : start + length ≤ Word.payloadLimit)
    (hplace : 1 + 2 * (place + arms.length) ≤ length) :
    Agrees (injectArmsChecked arms ⟨start, length⟩ place)
      (injectArms arms (start + 1 + 2 * place)) := by
  cases arms with
  | nil =>
    rw [injectArmsChecked, injectArms]
    exact .pure ()
  | cons arm arms =>
    obtain ⟨id, body⟩ := arm
    rw [List.length_cons] at hplace
    have hlimit : Word.payloadLimit < UInt64.size := by decide
    have haddress : start + 1 + 2 * place = start + (1 + 2 * place) := by omega
    have hinside : start + (1 + 2 * place) + 1 = start + (2 + 2 * place) := by omega
    have hnext : start + (1 + 2 * place) + 2 = start + 1 + 2 * (place + 1) := by omega
    rw [injectArmsChecked, injectArms, number_bind _ (by simp only; omega),
      number_bind _ (by omega), haddress, cell_bind _ hroom (by omega)]
    refine (Agrees.of _).seq (keepsCapacity_writeNode _ _ _ _) ?_
    rw [hinside, cell_bind _ hroom (by omega), hnext]
    exact (agrees_inject body _).seq (keepsCapacity_inject body _)
      (agrees_injectArms arms (place + 1) hroom (by omega))

end

end Tree

/-! ## Units and books -/

namespace Checked

variable {σ α β : Type} {state : σ}

theorem of_of_ok {action : EStateM InjectError σ α} {value : α} {left : σ}
    (h : action state = .ok value left) : of action state = .ok value left := by
  unfold of EStateM.adaptExcept
  rw [h]

theorem of_of_error {action : EStateM InjectError σ α} {error : InjectError} {left : σ}
    (h : action state = .error error left) : of action state = .error (.failed error) left := by
  unfold of EStateM.adaptExcept
  rw [h]

/-- Two steps with checks do what those without do, if each of them does. -/
theorem bind_eq {checked : Checked σ α} {next : α → Checked σ β}
    {plain : EStateM InjectError σ α} {others : α → EStateM InjectError σ β}
    (hfirst : checked state = of plain state)
    (hnext : ∀ value left, plain state = .ok value left →
      next value left = of (others value) left) :
    (checked >>= next) state = of (plain >>= others) state := by
  cases hplain : plain state with
  | ok value left =>
    rw [bind_of_ok (hfirst.trans (of_of_ok hplain)), hnext value left hplain]
    exact (of_congr (bind_of_ok hplain)).symm
  | error error left =>
    rw [bind_of_error (hfirst.trans (of_of_error hplain))]
    exact (of_of_error (bind_of_error hplain)).symm

theorem withScope_eq {checked : Checked Injector α} {plain : Injection α} {heap : Heap}
    (h : checked (.new heap) = of plain (.new heap)) :
    withScope checked heap = of (HeapAction.withScope plain) heap := by
  unfold withScope
  cases hplain : plain (.new heap) with
  | ok value left =>
    rw [h, of_of_ok hplain]
    cases hfinish : left.finish with
    | ok done => simp only [of, EStateM.adaptExcept, HeapAction.withScope, hplain, hfinish]
    | error error => simp only [of, EStateM.adaptExcept, HeapAction.withScope, hplain, hfinish]
  | error error left =>
    rw [h, of_of_error hplain]
    simp only [of, EStateM.adaptExcept, HeapAction.withScope, hplain]

end Checked

variable {heap : Heap}

theorem Tree.injectAtChecked_eq (tree : Tree) (host : Nat)
    (h : heap.capacity ≤ Word.payloadLimit) :
    tree.injectAtChecked host heap = Checked.of (tree.injectAt host) heap :=
  Checked.bind_eq (withScope_eq (tree.agrees_inject host (.new heap) h)) fun _ _ _ => rfl

theorem Tree.injectRootChecked_eq (tree : Tree) (h : heap.Reached) :
    tree.injectRootChecked heap = Checked.of tree.injectRoot heap := by
  refine Checked.bind_eq rfl fun done between hrun => ?_
  have hsafe := (reserveRoot_safe h).1.state
  rw [hrun] at hsafe
  exact tree.injectAtChecked_eq rootAddress hsafe.valid.2

theorem Book.injectChecked_eq (book : Book) (id : UInt32)
    (h : heap.capacity ≤ Word.payloadLimit) :
    book.injectChecked id heap = Checked.of (book.inject id) heap := by
  have hinject := book.inject_eq id heap
  unfold injectChecked
  cases hfound : book.definitions[id.toNat]? with
  | none =>
    rw [hfound] at hinject
    exact (Checked.of_of_error hinject).symm
  | some definition =>
    rw [hfound] at hinject
    have hplain : book.inject id heap = (HeapAction.alloc 1 >>= definition.2.injectAt) heap :=
      hinject
    rw [Checked.of_congr hplain]
    refine Checked.bind_eq rfl fun host between hrun => ?_
    obtain ⟨-, rfl⟩ := HeapAction.of_alloc_eq_ok hrun
    exact definition.2.injectAtChecked_eq host h

theorem Book.injectEachChecked_eq (book : Book) (ids : List UInt32) (h : heap.Reached) :
    book.injectEachChecked ids heap = Checked.of (book.injectEach ids) heap := by
  induction ids generalizing heap with
  | nil => rfl
  | cons id ids ih =>
    rw [injectEachChecked, injectEach_cons]
    refine Checked.bind_eq (book.injectChecked_eq id h.valid.2) fun root between hrun => ?_
    have hfirst := (book.inject_safe id h).state
    rw [hrun] at hfirst
    exact Checked.bind_eq (ih hfirst) fun _ _ _ => rfl

/-! ## No injection faults -/

/-- No injection stores or reads outside of the cells in use, puts a field into a word that it does
not fit in, computes a number that needs more than 64 bits or leaves the cells of its node: on any
heap that is reached it does what the run with checks does, and all its errors are refusals.  This
holds of all that an injector is used for, also after some of it failed, and of units and books. -/
theorem Injector.never_faults :
    (∀ injector : Injector, injector.Reached →
      (∀ (tree : Tree) (host : Nat), host < injector.heap.size →
        tree.injectChecked host injector = Checked.of (tree.inject host) injector ∧
          Injection.Safe (tree.inject host injector)) ∧
      ∀ error, injector.finish = .error error → error.IsRefusal) ∧
    ∀ heap : Heap, heap.Reached →
      (∀ (tree : Tree) (host : Nat), host < heap.size →
        tree.injectAtChecked host heap = Checked.of (tree.injectAt host) heap ∧
          HeapAction.Safe (tree.injectAt host heap)) ∧
      (∀ tree : Tree, tree.injectRootChecked heap = Checked.of tree.injectRoot heap ∧
        HeapAction.Safe (tree.injectRoot heap)) ∧
      ∀ book : Book,
        (∀ id, book.injectChecked id heap = Checked.of (book.inject id) heap ∧
          HeapAction.Safe (book.inject id heap)) ∧
        book.injectEachChecked book.allIds heap = Checked.of book.injectAll heap ∧
          HeapAction.Safe (book.injectAll heap) := by
  refine ⟨fun injector h => ⟨fun tree host hhost => ?_, fun _ => isRefusal_of_finish⟩,
    fun heap h => ⟨fun tree host hhost => ?_, fun tree => ?_, fun book => ⟨fun id => ?_, ?_⟩⟩⟩
  · obtain ⟨hsound, hreached⟩ := h.sound_and_reached
    exact ⟨tree.agrees_inject host injector hreached.valid.2,
      tree.inject_safe hsound hreached hhost⟩
  · exact ⟨tree.injectAtChecked_eq host h.valid.2, tree.injectAt_safe h hhost⟩
  · exact ⟨tree.injectRootChecked_eq h, tree.injectRoot_safe h⟩
  · exact ⟨book.injectChecked_eq id h.valid.2, book.inject_safe id h⟩
  · exact ⟨book.injectEachChecked_eq book.allIds h, book.injectEach_safe book.allIds h⟩

/-- A constructor with three fields is refused, for want of cells, while the variable before it
waits for its binder.  The lambda that comes next binds it in the cell that waits. -/
theorem Injector.never_faults_resumed :
    let refused : Tree := .app (.var "x") (.ctr 0 [.era, .era, .era])
    let resumed : Tree := .lam "x" .era
    let start : Injector := .new ⟨#[.void], 5⟩
    let between := stateAfter (refused.inject 0 start)
    start.heap.Reached ∧ between.Reached ∧ between.scope.sites "x" = [1] ∧
      refused.injectChecked 0 start = .error (.failed (.heap (.outOfMemory 3 3 5))) between ∧
      resumed.injectChecked 0 between = Checked.of (resumed.inject 0) between ∧
      (stateAfter (resumed.inject 0 between)).heap =
        ⟨#[.pack .lam 0 3, .pack .var 0 3, .void, .sub, .era], 5⟩ := by
  intro refused resumed start between
  have hheap : start.heap.Reached :=
    .alloc (.withCapacity (show Heap.withCapacity 5 = .ok ⟨#[], 5⟩ from rfl))
      (show Heap.alloc ⟨#[], 5⟩ 1 = .ok (0, ⟨#[.void], 5⟩) from rfl)
  have hstart : start.Reached := .new hheap
  have hbetween : between.Reached := .inject hstart (by decide)
  refine ⟨hheap, hbetween, by decide, ?_, ?_, by decide⟩
  · rw [((Injector.never_faults.1 start hstart).1 refused 0 (by decide)).1]
    rfl
  · exact ((Injector.never_faults.1 between hbetween).1 resumed 0 (by decide)).1

end InteractionGraph
