import InteractionGraph.Proofs.Inject.Frame

/-!
# Errors that no injection ends with

An injection can fail in more ways than it should: it might store in a cell that was never handed
out, or a word whose fields do not fit.  It ends with neither of these errors, in whatever state the
injector is that it begins with.  All its errors are those of requests that were refused
(`InjectError.IsRefusal`).

The injectors in question are those that one can get to (`Injector.Reached`): from a heap that was
built and used, any terms were written with one scope, and some of these may have failed half way.
The invariant is that all cells which wait for a binder were handed out (`Injector.Sound`).  It does
not matter for it where a run stopped, since each step keeps it (`Step.Run.safe`).
-/

namespace InteractionGraph

open Injection Step

/-! ## Heaps and injectors that are reached -/

/-- The heap was built, and cells were handed out and written since. -/
inductive Heap.Reached : Heap → Prop where
  | new : Reached .new
  | withCapacity {capacity : Nat} {heap : Heap} :
    Heap.withCapacity capacity = .ok heap → Reached heap
  | alloc {heap heap' : Heap} {count address : Nat} :
    Reached heap → heap.alloc count = .ok (address, heap') → Reached heap'
  | write {heap heap' : Heap} {address : Nat} {word : Word} :
    Reached heap → heap.write address word = .ok heap' → Reached heap'

/-- The injector was made for a heap that is reached, and terms were written with it since, each of
them into a cell in use.  Some may have failed. -/
inductive Injector.Reached : Injector → Prop where
  | new {heap : Heap} : heap.Reached → Reached (.new heap)
  | inject {injector : Injector} {tree : Tree} {host : Nat} :
    Reached injector → host < injector.heap.size →
      Reached (stateAfter (tree.inject host injector))

/-- The error is that of a request that was refused, or of a name without a binder. -/
inductive InjectError.IsRefusal : InjectError → Prop where
  | outOfMemory (requested used capacity : Nat) :
    IsRefusal (.heap (.outOfMemory requested used capacity))
  | labelOverflow (tag : Tag) (value : Nat) : IsRefusal (.labelOverflow tag value)
  | unboundVariable (name : String) : IsRefusal (.unboundVariable name)
  | unresolvedReference (name : String) : IsRefusal (.unresolvedReference name)
  | unknownDefinition (id : UInt32) : IsRefusal (.unknownDefinition id)

namespace Heap.Reached

variable {heap : Heap}

theorem valid (h : heap.Reached) : heap.Valid := by
  induction h with
  | new => exact valid_new
  | withCapacity hbuilt => exact valid_of_withCapacity hbuilt
  | alloc _ halloc ih => exact valid_of_alloc ih halloc
  | write _ hwrite ih => exact valid_of_write ih hwrite

theorem grow {count : Nat} (h : heap.Reached) (hroom : heap.size + count ≤ heap.capacity) :
    (heap.grow count).Reached :=
  .alloc h (alloc_eq_ok_grow_iff.mpr ⟨hroom, rfl, rfl⟩)

theorem set {address : Nat} (h : heap.Reached) (hlt : address < heap.size) (word : Word) :
    (heap.set address word).Reached :=
  .write h (write_eq_ok_set_iff.mpr ⟨hlt, rfl⟩)

theorem setAll {writes : List (Nat × Word)} (h : heap.Reached)
    (hlt : ∀ write ∈ writes, write.1 < heap.size) : (heap.setAll writes).Reached := by
  induction writes generalizing heap with
  | nil => exact h
  | cons write writes ih =>
    obtain ⟨hfirst, hothers⟩ := List.forall_mem_cons.mp hlt
    refine ih (h.set hfirst write.2) ?_
    intro other hmem
    rw [size_set]
    exact hothers other hmem

end Heap.Reached

/-! ## Runs of steps -/

theorem Request.isRefusal_of_error? {capacity used : Nat} {request : Request} {error : InjectError}
    (h : request.error? capacity used = some error) : error.IsRefusal := by
  cases request with
  | label tag value =>
    obtain ⟨_, herror⟩ := Option.ite_none_left_eq_some.mp h
    rw [← Option.some.inj herror]
    exact .labelOverflow tag value
  | link name =>
    cases h
    exact .unresolvedReference name
  | cells count =>
    obtain ⟨_, herror⟩ := Option.ite_none_left_eq_some.mp h
    rw [← Option.some.inj herror]
    exact .outOfMemory count used capacity
  | bind name | use name => cases h

namespace Step

variable {injector : Injector} {step : Step} {steps : List Step}

theorem isRefusal_of_error? {capacity used : Nat} {error : InjectError}
    (h : step.error? capacity used = some error) : error.IsRefusal := by
  obtain ⟨request, _, herror⟩ := Option.bind_eq_some_iff.mp h
  exact Request.isRefusal_of_error? herror

/-- A step that succeeds hands out cells that there is room for, and stores in cells in use. -/
theorem reached_effect (hready : step.Ready injector) (h : injector.heap.Reached) :
    (step.effect injector).heap.Reached := by
  have hroom : injector.heap.size + step.cellCount ≤ injector.heap.capacity := by
    have hvalid := valid_effect hready h.valid
    rw [← size_effect, ← capacity_effect step injector]
    exact hvalid.1
  refine (h.grow hroom).setAll ?_
  intro write hwrite
  rw [Heap.size_grow]
  exact Nat.lt_add_right _ (hready.2 write hwrite)

end Step

/-- Whether it succeeds or fails, the action leaves the injector in order, and it fails only if a
request is refused. -/
structure Injection.Safe {α : Type} (result : EStateM.Result InjectError Injector α) : Prop where
  sound : (stateAfter result).Sound
  reached : (stateAfter result).heap.Reached
  isRefusal : ∀ error left, result = .error error left → error.IsRefusal

/-- A run of guarded steps is safe, wherever it stops. -/
theorem Step.Run.safe {injector : Injector} {steps : List Step}
    {result : EStateM.Result InjectError Injector Unit} (h : Run steps injector result)
    (hsound : injector.Sound) (hreached : injector.heap.Reached) : Safe result := by
  induction h with
  | done injector => exact ⟨hsound, hreached, nofun⟩
  | refused steps herror =>
    refine ⟨hsound, hreached, ?_⟩
    rintro _ _ ⟨⟩
    exact isRefusal_of_error? herror
  | next _ hready hsound' _ ih => exact ih hsound' (reached_effect hready hreached)

theorem Tree.inject_safe {injector : Injector} (tree : Tree) {host : Nat}
    (hsound : injector.Sound) (hreached : injector.heap.Reached)
    (hhost : host < injector.heap.size) : Safe (tree.inject host injector) := by
  rw [inject_eq_performAll]
  have hrun := run_of_guarded (tree.guarded_steps_of_lt hhost) hsound hreached.valid
  exact hrun.safe hsound hreached

/-! ## Reached injectors -/

theorem Injector.Reached.sound_and_reached {injector : Injector} (h : injector.Reached) :
    injector.Sound ∧ injector.heap.Reached := by
  induction h with
  | new hheap => exact ⟨sound_new _, hheap⟩
  | @inject injector tree host _ hhost ih =>
    have hsafe := tree.inject_safe ih.1 ih.2 hhost
    exact ⟨hsafe.sound, hsafe.reached⟩

/-- An injector that is done fails because of a name without a binder, or not at all. -/
theorem Injector.isRefusal_of_finish {injector : Injector} {error : InjectError}
    (h : injector.finish = .error error) : error.IsRefusal := by
  unfold finish at h
  cases hunbound : injector.scope.unbound? with
  | none =>
    rw [hunbound] at h
    cases h
  | some name =>
    rw [hunbound] at h
    cases h
    exact .unboundVariable name

/-! ## Units and books -/

/-- Whether it succeeds or fails, the action leaves a heap that is reached again, and it fails only
if a request is refused. -/
abbrev HeapAction.Safe {α : Type} (result : EStateM.Result InjectError Heap α) : Prop :=
  Leaves Heap.Reached InjectError.IsRefusal result

namespace HeapAction

variable {α : Type} {heap : Heap}

theorem alloc_safe (h : heap.Reached) (count : Nat) : Safe (alloc count heap) := by
  cases hrun : alloc count heap with
  | ok address left =>
    obtain ⟨hroom, -, rfl⟩ := Heap.alloc_eq_ok_grow_iff.mp (of_ofChange_eq_ok hrun)
    exact .ok address (h.grow hroom)
  | error error left =>
    obtain ⟨rfl, rfl⟩ := of_alloc_eq_error hrun
    exact .refused h (.outOfMemory ..)

theorem withScope_safe {injection : Injection α}
    (h : Injection.Safe (injection (.new heap))) : Safe (withScope injection heap) := by
  refine ⟨?_, ?_⟩
  · rw [stateAfter_withScope]
    exact h.reached
  · intro error left hrun
    rcases of_withScope_eq_error hrun with ⟨injector, hinject, _⟩ | ⟨name, rfl⟩
    · exact h.isRefusal error injector hinject
    · exact .unboundVariable name

theorem read_safe {address : Nat} (h : heap.Reached) (hlt : address < heap.size) :
    Safe (read address heap) := by
  refine ⟨?_, ?_⟩
  · rw [stateAfter_read]
    exact h
  · intro error left hrun
    exact absurd hlt (Nat.not_lt_of_le (of_read_eq_error hrun).2)

end HeapAction

variable {heap : Heap}

theorem Tree.injectAt_safe (tree : Tree) {host : Nat} (h : heap.Reached)
    (hhost : host < heap.size) : HeapAction.Safe (tree.injectAt host heap) := by
  have hscope : HeapAction.Safe (HeapAction.withScope (tree.inject host) heap) :=
    HeapAction.withScope_safe (tree.inject_safe (Injector.sound_new heap) h hhost)
  have hsize := (tree.spares_inject host heap).size_le
  rw [← HeapAction.stateAfter_withScope] at hsize
  refine hscope.bind fun _ between hrun hbetween => ?_
  rw [hrun] at hsize
  exact HeapAction.read_safe hbetween (Nat.lt_of_lt_of_le hhost hsize)

/-- A term that stands alone is written into the first cell, which is there afterwards. -/
theorem Tree.reserveRoot_safe (h : heap.Reached) : HeapAction.Safe (reserveRoot heap) ∧
    ∀ done left, reserveRoot heap = .ok done left → rootAddress < left.size := by
  have hunfold : reserveRoot heap =
      (if heap.size = 0 then (HeapAction.alloc 1 >>= fun _ => pure ()) else pure ()) heap := rfl
  rw [hunfold]
  by_cases hempty : heap.size = 0
  · rw [if_pos hempty]
    refine ⟨(HeapAction.alloc_safe h 1).bind fun _ between _ hbetween => .ok () hbetween, ?_⟩
    intro done left hrun
    obtain ⟨_, _, hfirst, hlast⟩ := bind_eq_ok_iff.mp hrun
    obtain ⟨-, rfl⟩ := HeapAction.of_alloc_eq_ok hfirst
    cases hlast
    rw [Heap.size_grow]
    exact Nat.succ_pos _
  · rw [if_neg hempty]
    refine ⟨.ok () h, ?_⟩
    rintro _ _ ⟨⟩
    exact Nat.pos_of_ne_zero hempty

theorem Tree.injectRoot_safe (tree : Tree) (h : heap.Reached) :
    HeapAction.Safe (tree.injectRoot heap) := by
  obtain ⟨hsafe, hroot⟩ := reserveRoot_safe h
  exact hsafe.bind fun done between hrun hbetween =>
    tree.injectAt_safe hbetween (hroot done between hrun)

theorem Book.inject_safe (book : Book) (id : UInt32) (h : heap.Reached) :
    HeapAction.Safe (book.inject id heap) := by
  rw [inject_eq]
  cases book.definitions[id.toNat]? with
  | none => exact .refused h (.unknownDefinition id)
  | some definition =>
    refine (HeapAction.alloc_safe h 1).bind fun host between hrun hbetween => ?_
    obtain ⟨rfl, hgrow⟩ := HeapAction.of_alloc_eq_ok hrun
    refine definition.2.injectAt_safe hbetween ?_
    rw [hgrow, Heap.size_grow]
    exact Nat.lt_succ_self _

theorem Book.injectEach_safe (book : Book) (ids : List UInt32) (h : heap.Reached) :
    HeapAction.Safe (book.injectEach ids heap) := by
  induction ids generalizing heap with
  | nil => exact .ok [] h
  | cons id ids ih =>
    rw [injectEach_cons]
    refine (book.inject_safe id h).bind fun root between _ hbetween => ?_
    exact (ih hbetween).bind fun roots left _ hleft => .ok (root :: roots) hleft

end InteractionGraph
