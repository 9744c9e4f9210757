import InteractionGraph.Proofs.Inject.Operations
import InteractionGraph.Proofs.Inject.Representation
import Mathlib.Algebra.Ring.Nat

/-!
# Writing a term, step by step

Writing a term goes down the term, but all that it does is a sequence of six kinds of `Step`s, and
none of them looks at the term again.  `Step.perform` carries out one step with the operations of
an injector.

What a step does if it succeeds is a plain function of the injector, `Step.effect`, and
`Step.Ready` says when it succeeds: `perform_eq_ok_iff`.  So a run of steps that succeeds leaves
what folding the effects gives (`performAll_eq_ok_iff`), and every statement about such runs is an
induction on a list.
-/

namespace InteractionGraph

open Injection

/-- A step of writing a term. -/
inductive Step where
  /-- A number has to fit in the label of a word. -/
  | check (tag : Tag) (value : Nat)
  /-- A reference comes up in a cell that was never linked. -/
  | unlinked (name : String) (address : Nat)
  /-- The cells of a node are handed out. -/
  | reserve (cells : Block)
  /-- A binder comes up. -/
  | bind (binder : Binder)
  /-- A use of a name comes up in a cell. -/
  | use (name : String) (address : Nat)
  /-- The word of the given fields is stored in a cell. -/
  | store (address : Nat) (tag : Tag) (label payload : Nat)
  deriving DecidableEq

/-- The word that the uses of a binder read. -/
def Binder.word (binder : Binder) : Word := Word.pack binder.tag binder.label binder.node

namespace Step

/-- Carries out a step. -/
def perform : Step → Injection Unit
  | check tag value => checkLabel tag value
  | unlinked name _ => throw (.unresolvedReference name)
  | reserve cells => do
    let _ ← alloc cells.length
  | bind binder => do
    let use ← encode binder.tag binder.label binder.node
    bindName binder.name binder.slot use
  | use name address => useName name address
  | store address tag label payload => writeNode address tag label payload

/-- Carries out steps one after the other. -/
def performAll : List Step → Injection Unit
  | [] => pure ()
  | step :: steps => do
    step.perform
    performAll steps

/-- The number of cells that a step hands out. -/
def cellCount : Step → Nat
  | reserve cells => cells.length
  | _ => 0

/-- The number of cells that some steps hand out. -/
def reserved (steps : List Step) : Nat := (steps.map cellCount).sum

/-! ## Effects -/

/-- The scope after a step. -/
def scopeAfter (scope : Scope) : Step → Scope
  | bind binder => scope.bind binder.name binder.word
  | use name address =>
    match scope[name]? with
    | some (.bound _) => scope
    | _ => scope.addSite name address
  | _ => scope

/-- What a step stores, and where, in this order. -/
def writes (scope : Scope) : Step → List (Nat × Word)
  | bind binder => (binder.slot, .sub) :: (scope.sites binder.name).map (·, binder.word)
  | use name address =>
    match scope[name]? with
    | some (.bound word) => [(address, word)]
    | _ => []
  | store address tag label payload => [(address, .pack tag label payload)]
  | _ => []

/-- The injector after a step that succeeds. -/
def effect (step : Step) (injector : Injector) : Injector :=
  ⟨(injector.heap.grow step.cellCount).setAll (step.writes injector.scope),
    step.scopeAfter injector.scope⟩

/-- What a step asks for is met by the heap, apart from the cells it stores in. -/
def Met (heap : Heap) : Step → Prop
  | check _ value => Word.FitsLabel value
  | unlinked _ _ => False
  | reserve cells => heap.size + cells.length ≤ heap.capacity
  | bind binder => binder.label < Word.labelLimit ∧ binder.node < Word.payloadLimit
  | use _ _ => True
  | store _ _ label payload => label < Word.labelLimit ∧ payload < Word.payloadLimit

/-- A step succeeds: what it asks for is met, and the cells it stores in were handed out. -/
def Ready (step : Step) (injector : Injector) : Prop :=
  step.Met injector.heap ∧ ∀ write ∈ step.writes injector.scope, write.1 < injector.heap.size

/-! ## A step succeeds exactly when it is ready -/

variable {injector injector' : Injector} {done : Unit}

theorem perform_eq_ok_iff {step : Step} :
    step.perform injector = .ok done injector' ↔
      step.Ready injector ∧ injector' = step.effect injector := by
  cases step with
  | check tag value =>
    simp [perform, Ready, Met, effect, writes, scopeAfter, cellCount, checkLabel_eq_ok_iff]
  | unlinked name address =>
    simp [perform, Ready, Met, Injection.throw_ne_ok]
  | reserve cells =>
    simp only [perform, bind_eq_ok_iff, Injection.alloc_eq_ok_iff, pure_eq_ok_iff,
      Ready, Met, effect, writes, scopeAfter, cellCount, Heap.setAll_nil]
    constructor
    · rintro ⟨_, _, ⟨hroom, rfl, rfl⟩, _, rfl⟩
      simp [hroom]
    · rintro ⟨⟨hroom, _⟩, rfl⟩
      exact ⟨_, _, ⟨hroom, rfl, rfl⟩, trivial, rfl⟩
  | bind binder =>
    simp only [perform, bind_eq_ok_iff, encode_eq_ok_iff, bindName_eq_ok_iff, Ready, Met,
      effect, writes, scopeAfter, cellCount, Heap.grow_zero]
    constructor
    · rintro ⟨_, _, ⟨hfits, rfl, rfl⟩, ⟨hslot, hsites⟩, rfl⟩
      simp_all [Binder.word]
    · rintro ⟨⟨hfits, hwrites⟩, rfl⟩
      simp only [List.forall_mem_cons, List.forall_mem_map] at hwrites
      exact ⟨_, _, ⟨hfits, rfl, rfl⟩, hwrites, rfl⟩
  | use name address =>
    simp only [perform, Ready, Met, effect, writes, scopeAfter, cellCount, Heap.grow_zero,
      true_and]
    split
    · rename_i word hword
      simp [useName_of_bound hword, Injection.write_eq_ok_iff]
    · rename_i hword
      simp [useName_of_not_bound hword, eq_comm]
  | store address tag label payload =>
    simp [perform, Ready, Met, effect, writes, scopeAfter, cellCount, writeNode_eq_ok_iff,
      and_assoc]

/-! ## Runs -/

/-- The injector after steps that succeed. -/
def effectAll (steps : List Step) (injector : Injector) : Injector :=
  steps.foldl (fun injector step => step.effect injector) injector

/-- All of the steps succeed, one after the other. -/
def ReadyAll : List Step → Injector → Prop
  | [], _ => True
  | step :: steps, injector => step.Ready injector ∧ ReadyAll steps (step.effect injector)

theorem performAll_eq_ok_iff {steps : List Step} :
    performAll steps injector = .ok done injector' ↔
      ReadyAll steps injector ∧ injector' = effectAll steps injector := by
  induction steps generalizing injector with
  | nil =>
    rw [performAll, pure_eq_ok_iff]
    exact ⟨fun h => ⟨trivial, h.2⟩, fun h => ⟨rfl, h.2⟩⟩
  | cons step steps ih =>
    rw [performAll, bind_eq_ok_iff]
    simp only [perform_eq_ok_iff, ih, ReadyAll]
    constructor
    · rintro ⟨_, _, ⟨hready, rfl⟩, hsteps, rfl⟩
      exact ⟨⟨hready, hsteps⟩, rfl⟩
    · rintro ⟨⟨hready, hsteps⟩, rfl⟩
      exact ⟨(), _, ⟨hready, rfl⟩, hsteps, rfl⟩

theorem performAll_append (first second : List Step) :
    performAll (first ++ second) = performAll first >>= fun _ => performAll second := by
  induction first with
  | nil => rw [List.nil_append, performAll, pure_bind]
  | cons step steps ih => rw [List.cons_append, performAll, performAll, ih, bind_assoc]

@[simp]
theorem effectAll_nil (injector : Injector) : effectAll [] injector = injector := rfl

theorem effectAll_append (first second : List Step) (injector : Injector) :
    effectAll (first ++ second) injector = effectAll second (effectAll first injector) :=
  List.foldl_append

theorem readyAll_append {first second : List Step} :
    ReadyAll (first ++ second) injector ↔
      ReadyAll first injector ∧ ReadyAll second (effectAll first injector) := by
  induction first generalizing injector with
  | nil => simp [ReadyAll]
  | cons step steps ih =>
    rw [List.cons_append, ReadyAll, ReadyAll, ih, and_assoc]
    rfl

/-! ## Sizes -/

@[simp]
theorem size_effect (step : Step) (injector : Injector) :
    (step.effect injector).heap.size = injector.heap.size + step.cellCount := by
  rw [effect, Heap.size_setAll, Heap.size_grow]

@[simp]
theorem capacity_effect (step : Step) (injector : Injector) :
    (step.effect injector).heap.capacity = injector.heap.capacity := by
  rw [effect, Heap.capacity_setAll, Heap.capacity_grow]

@[simp]
theorem reserved_nil : reserved [] = 0 := rfl

@[simp]
theorem reserved_cons (step : Step) (steps : List Step) :
    reserved (step :: steps) = step.cellCount + reserved steps := by
  simp [reserved]

@[simp]
theorem reserved_append (first second : List Step) :
    reserved (first ++ second) = reserved first + reserved second := by
  simp [reserved]

theorem size_effectAll (steps : List Step) (injector : Injector) :
    (effectAll steps injector).heap.size = injector.heap.size + reserved steps := by
  induction steps generalizing injector with
  | nil => rfl
  | cons step steps ih =>
    have hstep : (effectAll steps (step.effect injector)).heap.size =
        (step.effect injector).heap.size + reserved steps := ih (step.effect injector)
    rw [reserved_cons, ← Nat.add_assoc, ← size_effect]
    exact hstep

theorem capacity_effectAll (steps : List Step) (injector : Injector) :
    (effectAll steps injector).heap.capacity = injector.heap.capacity := by
  induction steps generalizing injector with
  | nil => rfl
  | cons step steps ih =>
    have hstep : (effectAll steps (step.effect injector)).heap.capacity =
        (step.effect injector).heap.capacity := ih (step.effect injector)
    rw [← capacity_effect step injector]
    exact hstep

end Step

end InteractionGraph
