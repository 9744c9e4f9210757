import InteractionGraph.Proofs.Inject.Frame

/-!
# The same term on a larger heap

The capacity of a heap matters in one place only: a request for cells is refused where there is no
room.  So a term that is written, or that cannot be written for another reason, fares the same on a
heap with the same cells and a greater capacity.

A run that is out of room stops where the run with more room goes on, and has left nothing that the
other one would write differently.  This is because a fresh cell is written once: it is the target
of one step, and a binder writes only those cells far away that still wait for it
(`Step.spares_written`).
-/

namespace InteractionGraph

open Injection Step

/-! ## Actions that do not look at the capacity -/

/-- The same cells with another capacity. -/
def Heap.resize (heap : Heap) (capacity : Nat) : Heap := { heap with capacity }

/-- The same injector on a heap of another capacity. -/
def Injector.resize (injector : Injector) (capacity : Nat) : Injector :=
  { injector with heap := injector.heap.resize capacity }

/-- The same result, with the state that it leaves changed. -/
def onState {ε σ α : Type} (change : σ → σ) :
    EStateM.Result ε σ α → EStateM.Result ε σ α
  | .ok value state => .ok value (change state)
  | .error error state => .error error (change state)

/-- The error is that of a request for cells. -/
def InjectError.IsOutOfMemory (error : InjectError) : Prop :=
  ∃ requested used capacity, error = .heap (.outOfMemory requested used capacity)

namespace Injection

variable {α β : Type}

/-- The action does the same on a heap of any capacity, and does not fail for want of room. -/
structure IgnoresRoom (action : Injection α) : Prop where
  resize : ∀ (injector : Injector) (capacity : Nat),
    action (injector.resize capacity) = onState (·.resize capacity) (action injector)
  error : ∀ injector error left, action injector = .error error left → ¬ error.IsOutOfMemory

namespace IgnoresRoom

theorem pure (value : α) : IgnoresRoom (pure value : Injection α) :=
  ⟨fun _ _ => rfl, nofun⟩

theorem throw {error : InjectError} (h : ¬ error.IsOutOfMemory) :
    IgnoresRoom (throw error : Injection α) := by
  refine ⟨fun _ _ => rfl, ?_⟩
  rintro _ _ _ ⟨⟩
  exact h

theorem bind {first : Injection α} {next : α → Injection β} (hfirst : IgnoresRoom first)
    (hnext : ∀ value, IgnoresRoom (next value)) : IgnoresRoom (first >>= next) := by
  refine ⟨?_, ?_⟩
  · intro injector capacity
    have hresize := hfirst.resize injector capacity
    cases hrun : first injector with
    | ok value between =>
      rw [hrun] at hresize
      rw [bind_of_ok hrun, bind_of_ok hresize]
      exact (hnext value).resize between capacity
    | error error left =>
      rw [hrun] at hresize
      rw [bind_of_error hrun, bind_of_error hresize]
      rfl
  · intro injector error left h
    cases hrun : first injector with
    | ok value between =>
      rw [bind_of_ok hrun] at h
      exact (hnext value).error between error left h
    | error refused between =>
      rw [bind_of_error hrun] at h
      cases h
      exact hfirst.error injector error left hrun

theorem write (address : Nat) (word : Word) : IgnoresRoom (write address word) := by
  refine ⟨?_, ?_⟩
  · intro injector capacity
    unfold Injection.write Heap.write
    by_cases hlt : address < injector.heap.cells.size
    · have hlt' : address < (injector.resize capacity).heap.cells.size := hlt
      rw [dif_pos hlt, dif_pos hlt']
      rfl
    · have hlt' : ¬ address < (injector.resize capacity).heap.cells.size := hlt
      rw [dif_neg hlt, dif_neg hlt']
      rfl
  · intro injector error left h
    unfold Injection.write Heap.write at h
    split at h
    · cases h
    · rename_i hwrite
      split at hwrite <;> cases hwrite
      cases h
      simp [InjectError.IsOutOfMemory]

theorem encode (tag : Tag) (label payload : Nat) : IgnoresRoom (encode tag label payload) := by
  unfold Injection.encode
  split
  · exact .pure _
  · exact .throw (by simp [InjectError.IsOutOfMemory])

theorem checkLabel (tag : Tag) (value : Nat) : IgnoresRoom (checkLabel tag value) := by
  unfold Injection.checkLabel
  split
  · exact .pure ()
  · exact .throw (by simp [InjectError.IsOutOfMemory])

theorem writeAll (word : Word) (addresses : List Nat) :
    IgnoresRoom (writeAll word addresses) := by
  induction addresses with
  | nil => exact .pure ()
  | cons address addresses ih => exact .bind (.write address word) fun _ => ih

theorem bindName (name : String) (slot : Nat) (word : Word) :
    IgnoresRoom (bindName name slot word) :=
  .bind (.write slot Word.sub) fun _ =>
    .bind ⟨fun _ _ => rfl, nofun⟩ fun waiting => .writeAll word waiting

theorem useName (name : String) (host : Nat) : IgnoresRoom (useName name host) := by
  refine ⟨?_, ?_⟩
  · intro injector capacity
    by_cases hbound : ∃ word, injector.scope[name]? = some (.bound word)
    · obtain ⟨word, hword⟩ := hbound
      have hresized : (injector.resize capacity).scope[name]? = some (.bound word) := hword
      rw [useName_of_bound hword, useName_of_bound hresized]
      exact (IgnoresRoom.write host word).resize injector capacity
    · have hunbound := not_exists.mp hbound
      have hresized : ∀ word, (injector.resize capacity).scope[name]? ≠ some (.bound word) :=
        hunbound
      rw [useName_of_not_bound hunbound, useName_of_not_bound hresized]
      rfl
  · intro injector error left h
    by_cases hbound : ∃ word, injector.scope[name]? = some (.bound word)
    · obtain ⟨word, hword⟩ := hbound
      rw [useName_of_bound hword] at h
      exact (IgnoresRoom.write host word).error injector error left h
    · rw [useName_of_not_bound (not_exists.mp hbound)] at h
      cases h

end IgnoresRoom

end Injection

namespace Step

variable {injector : Injector} {steps before after : List Step} {cells : Block} {capacity : Nat}

/-- All steps but the requests for cells do the same on a heap of any capacity. -/
theorem ignoresRoom_perform {step : Step} (h : ∀ cells, step ≠ .reserve cells) :
    IgnoresRoom step.perform := by
  cases step with
  | check tag value => exact .checkLabel tag value
  | unlinked name address => exact .throw (by simp [InjectError.IsOutOfMemory])
  | reserve cells => exact absurd rfl (h cells)
  | bind found =>
    exact .bind (.encode found.tag found.label found.node) fun use =>
      .bindName found.name found.slot use
  | use name address => exact .useName name address
  | store address tag label payload =>
    exact .bind (.encode tag label payload) fun word => .write address word

/-! ## Where a run is out of room -/

/-- The steps `before` are carried out, and there is no room for the cells that are asked for
next. -/
structure RunsOut (steps : List Step) (injector : Injector) (before : List Step) (cells : Block)
    (after : List Step) : Prop where
  split : steps = before ++ .reserve cells :: after
  run : performAll before injector = .ok () (effectAll before injector)
  short : (effectAll before injector).heap.capacity <
    (effectAll before injector).heap.size + cells.length

/-- The request for cells is refused, and nothing behind it is carried out. -/
theorem RunsOut.performAll_eq (h : RunsOut steps injector before cells after) :
    performAll steps injector =
      .error (.heap (.outOfMemory cells.length (effectAll before injector).heap.size
        injector.heap.capacity)) (effectAll before injector) := by
  have hcapacity := capacity_effectAll before injector
  rw [h.split, performAll_append, bind_of_ok h.run, performAll, perform,
    bind_of_error (bind_of_error (alloc_of_lt h.short)), hcapacity]

/-- On a larger heap, a run either does the same or goes on where this one is out of room. -/
theorem performAll_resize (steps : List Step) (injector : Injector)
    (hle : injector.heap.capacity ≤ capacity) :
    (performAll steps (injector.resize capacity) =
        onState (·.resize capacity) (performAll steps injector) ∧
      ∀ error left, performAll steps injector = .error error left → ¬ error.IsOutOfMemory) ∨
    ∃ before cells after, RunsOut steps injector before cells after := by
  induction steps generalizing injector with
  | nil => exact .inl ⟨rfl, nofun⟩
  | cons step steps ih =>
    -- A step that succeeds on both heaps leaves the rest of the run to the induction.
    have hstep : step.perform injector = .ok () (step.effect injector) →
        step.perform (injector.resize capacity) = .ok () ((step.effect injector).resize capacity) →
        (performAll (step :: steps) (injector.resize capacity) =
            onState (·.resize capacity) (performAll (step :: steps) injector) ∧
          ∀ error left, performAll (step :: steps) injector = .error error left →
            ¬ error.IsOutOfMemory) ∨
        ∃ before cells after, RunsOut (step :: steps) injector before cells after := by
      intro hrun hresize
      rw [performAll, bind_of_ok hrun, bind_of_ok hresize]
      refine (ih (step.effect injector) ((capacity_effect step injector).trans_le hle)).imp_right ?_
      rintro ⟨before, cells, after, hout⟩
      refine ⟨step :: before, cells, after, ?_, ?_, hout.short⟩
      · rw [hout.split, List.cons_append]
      · rw [performAll, bind_of_ok hrun]
        exact hout.run
    by_cases hreserve : ∃ cells, step = .reserve cells
    · obtain ⟨cells, rfl⟩ := hreserve
      by_cases hroom : injector.heap.size + cells.length ≤ injector.heap.capacity
      · refine hstep (perform_eq_ok_iff.mpr ⟨⟨hroom, by simp [writes]⟩, rfl⟩) ?_
        exact perform_eq_ok_iff.mpr ⟨⟨Nat.le_trans hroom hle, by simp [writes]⟩, rfl⟩
      · exact .inr ⟨[], cells, steps, rfl, rfl, Nat.lt_of_not_le hroom⟩
    · have hignores := ignoresRoom_perform (not_exists.mp hreserve)
      have hresize := hignores.resize injector capacity
      cases hrun : step.perform injector with
      | ok done left =>
        obtain ⟨-, rfl⟩ := perform_eq_ok_iff.mp hrun
        rw [hrun] at hresize
        exact hstep hrun hresize
      | error error left =>
        rw [hrun] at hresize
        left
        rw [performAll, bind_of_error hrun, bind_of_error hresize]
        refine ⟨rfl, ?_⟩
        rintro _ _ ⟨⟩
        exact hignores.error injector error left hrun

/-- On a larger heap, the run gets at least to the request that is refused here. -/
theorem RunsOut.performAll_resize_eq (h : RunsOut steps injector before cells after)
    (hle : injector.heap.capacity ≤ capacity) :
    performAll steps (injector.resize capacity) =
      performAll (.reserve cells :: after) ((effectAll before injector).resize capacity) := by
  have hbefore : performAll before (injector.resize capacity) =
      .ok () ((effectAll before injector).resize capacity) := by
    rcases performAll_resize before injector hle with ⟨heq, _⟩ | ⟨_, _, _, hout⟩
    · rw [heq, h.run]
      rfl
    · have hrun := h.run
      rw [hout.performAll_eq] at hrun
      cases hrun
  rw [h.split, performAll_append, bind_of_ok hbefore]

/-! ## A fresh cell is written once -/

/-- Only the cells of uses wait. -/
theorem use_mem_of_mem_sites {heap : Heap} {name : String} {site : Nat}
    (h : site ∈ (effectAll steps (.new heap)).scope.sites name) : .use name site ∈ steps := by
  induction steps using List.reverseRecOn with
  | nil => cases h
  | append_singleton steps step ih =>
    rw [effectAll_append] at h
    rcases mem_sites_scopeAfter h with hold | rfl
    · exact List.mem_append_left _ (ih hold)
    · exact List.mem_append_right _ List.mem_cons_self

/-- A step stores in its own cell, or in the cell of an earlier use. -/
theorem mem_targets_of_mem_writes {heap : Heap} {step : Step} {address : Nat} {word : Word}
    (hmem : (address, word) ∈ step.writes (effectAll steps (.new heap)).scope) :
    address ∈ targets (steps ++ [step]) := by
  cases step with
  | check tag value | unlinked other place | reserve cells => cases hmem
  | bind found =>
    rcases List.mem_cons.mp hmem with heq | hwaiting
    · cases heq
      simp
    · obtain ⟨site, hsite, heq⟩ := List.mem_map.mp hwaiting
      cases heq
      have hold := mem_targets_iff.mpr ⟨_, use_mem_of_mem_sites hsite, rfl⟩
      rw [targets_append]
      exact List.mem_append_left _ hold
  | use other place =>
    rw [writes] at hmem
    split at hmem
    · cases List.mem_singleton.mp hmem
      simp
    · cases hmem
  | store place tag label payload =>
    cases List.mem_singleton.mp hmem
    simp

/-- A cell that a step stores in does not wait any more. -/
theorem notMem_sites_of_mem_writes {heap : Heap} {step : Step} {address : Nat} {word : Word}
    (hnodup : (targets (steps ++ [step])).Nodup)
    (hmem : (address, word) ∈ step.writes (effectAll steps (.new heap)).scope) (name : String) :
    address ∉ (step.scopeAfter (effectAll steps (.new heap)).scope).sites name := by
  rw [targets_append] at hnodup
  obtain ⟨hsteps, -, hapart⟩ := List.nodup_append.mp hnodup
  -- A cell that waits is the target of an earlier use, and of no other step.
  have htarget : step.target? = some address →
      ∀ other, address ∉ (effectAll steps (.new heap)).scope.sites other := by
    intro htarget other hsite
    have hold : address ∈ targets steps :=
      mem_targets_iff.mpr ⟨_, use_mem_of_mem_sites hsite, rfl⟩
    exact hapart address hold address (mem_targets_iff.mpr ⟨step, by simp, htarget⟩) rfl
  cases step with
  | check tag value | unlinked other place | reserve cells => cases hmem
  | bind found =>
    rw [scopeAfter, Scope.sites_bind]
    split
    · exact List.not_mem_nil
    · rename_i hname
      rcases List.mem_cons.mp hmem with heq | hwaiting
      · cases heq
        exact htarget rfl name
      · obtain ⟨site, hsite, heq⟩ := List.mem_map.mp hwaiting
        cases heq
        intro hother
        have heq := eq_of_target?_eq hsteps (use_mem_of_mem_sites hsite)
          (use_mem_of_mem_sites hother) rfl rfl
        exact hname (Step.use.inj heq).1
  | use other place =>
    rw [writes] at hmem
    rw [scopeAfter]
    split at hmem
    · cases List.mem_singleton.mp hmem
      exact htarget rfl name
    · cases hmem
  | store place tag label payload =>
    cases List.mem_singleton.mp hmem
    exact htarget rfl name

/-- A fresh cell that is not void is the target of a step that was carried out, and it does not
wait. -/
theorem settled_of_ne_void {heap : Heap} {address : Nat} {word : Word}
    (hnodup : (targets steps).Nodup) (hfresh : heap.size ≤ address)
    (hcell : (effectAll steps (.new heap)).heap.cells[address]? = some word)
    (hword : word ≠ .void) :
    address ∈ targets steps ∧
      ∀ name, address ∉ (effectAll steps (.new heap)).scope.sites name := by
  induction steps using List.reverseRecOn with
  | nil =>
    have hlt := (Array.getElem?_eq_some_iff.mp hcell).1
    exact absurd hfresh (Nat.not_le_of_lt hlt)
  | append_singleton steps step ih =>
    have happend := hnodup
    rw [targets_append] at happend
    obtain ⟨hsteps, -, hapart⟩ := List.nodup_append.mp happend
    rw [effectAll_append] at hcell ⊢
    rcases Heap.getElem?_or_mem_of_setAll hcell with hgrown | hwritten
    · rcases Heap.getElem?_or_void_of_grow hgrown with hold | hvoid
      · obtain ⟨hmem, hsites⟩ := ih hsteps hold
        refine ⟨by rw [targets_append]; exact List.mem_append_left _ hmem, ?_⟩
        intro name hsite
        rcases mem_sites_scopeAfter hsite with hwaits | rfl
        · exact hsites name hwaits
        · exact hapart address hmem address (by simp) rfl
      · exact absurd hvoid hword
    · exact ⟨mem_targets_of_mem_writes hwritten, notMem_sites_of_mem_writes hnodup hwritten⟩

end Step

/-- A cell from `start` on that was written. -/
def Heap.Written (heap : Heap) (start address : Nat) : Prop :=
  start ≤ address ∧ ∃ word, heap.cells[address]? = some word ∧ word ≠ .void

/-- On a heap of any capacity, what is written of the fresh cells stays as it is while further steps
are carried out. -/
theorem Step.spares_written {steps more : List Step} (hnodup : (targets (steps ++ more)).Nodup)
    (heap : Heap) (capacity : Nat) :
    Spares ((effectAll steps (.new heap)).heap.Written heap.size)
      ((effectAll steps (.new heap)).resize capacity) (performAll more) := by
  rw [targets_append] at hnodup
  obtain ⟨hsteps, -, hapart⟩ := List.nodup_append.mp hnodup
  refine spares_performAll ?_ ?_
  · rintro name site hsite ⟨hfresh, word, hcell, hword⟩
    exact (settled_of_ne_void hsteps hfresh hcell hword).2 name hsite
  · rintro address haddress ⟨hfresh, word, hcell, hword⟩
    exact hapart address (settled_of_ne_void hsteps hfresh hcell hword).1 address haddress rfl

/-! ## Units -/

namespace HeapAction

variable {α : Type}

theorem withScope_resize {injection : Injection α} {heap : Heap} {capacity : Nat}
    (h : injection (.new (heap.resize capacity)) =
      onState (·.resize capacity) (injection (.new heap))) :
    withScope injection (heap.resize capacity) =
      onState (·.resize capacity) (withScope injection heap) := by
  unfold withScope
  rw [h]
  cases injection (.new heap) with
  | error error left => rfl
  | ok value left =>
    simp only [onState, Injector.finish, Injector.resize]
    cases left.scope.unbound? <;> rfl

theorem read_of_none {heap : Heap} {address : Nat} (h : heap.cells[address]? = none) :
    read address heap = .error (.heap (.unallocated address heap.size)) heap := by
  simp only [read, ofChange, Heap.read, h, Except.map]

theorem read_resize (address : Nat) (heap : Heap) (capacity : Nat) :
    read address (heap.resize capacity) = onState (·.resize capacity) (read address heap) := by
  cases h : heap.cells[address]? with
  | some word =>
    have hresized : (heap.resize capacity).cells[address]? = some word := h
    rw [read_eq_ok_iff.mpr ⟨h, rfl⟩, read_eq_ok_iff.mpr ⟨hresized, rfl⟩]
    rfl
  | none =>
    have hresized : (heap.resize capacity).cells[address]? = none := h
    rw [read_of_none h, read_of_none hresized]
    rfl

end HeapAction

namespace Tree

variable {heap : Heap} {capacity : Nat}

/-- On a larger heap, a unit either fares the same or gets further than here. -/
theorem injectAt_resize (tree : Tree) (host : Nat) (hle : heap.capacity ≤ capacity) :
    (tree.injectAt host (heap.resize capacity) =
        onState (·.resize capacity) (tree.injectAt host heap) ∧
      ∀ error left, tree.injectAt host heap = .error error left → ¬ error.IsOutOfMemory) ∨
    ∃ before cells after, RunsOut (tree.steps host heap.size) (.new heap) before cells after := by
  have hsteps : ∀ heap : Heap, tree.inject host (.new heap) =
      performAll (tree.steps host heap.size) (.new heap) :=
    fun heap => tree.inject_eq_performAll host (.new heap)
  refine (performAll_resize (tree.steps host heap.size) (.new heap) hle).imp_left ?_
  rintro ⟨hresize, herror⟩
  have hinject : tree.inject host (.new (heap.resize capacity)) =
      onState (·.resize capacity) (tree.inject host (.new heap)) := by
    rw [hsteps, hsteps]
    exact hresize
  have hscope := HeapAction.withScope_resize hinject
  unfold injectAt
  cases hrun : HeapAction.withScope (tree.inject host) heap with
  | ok done between =>
    rw [hrun] at hscope
    rw [bind_of_ok hrun, bind_of_ok hscope]
    refine ⟨HeapAction.read_resize host between capacity, ?_⟩
    intro error left h
    cases hcell : between.cells[host]? with
    | some word =>
      rw [HeapAction.read_eq_ok_iff.mpr ⟨hcell, rfl⟩] at h
      cases h
    | none =>
      rw [HeapAction.read_of_none hcell] at h
      cases h
      simp [InjectError.IsOutOfMemory]
  | error error left =>
    rw [hrun] at hscope
    rw [bind_of_error hrun, bind_of_error hscope]
    refine ⟨rfl, ?_⟩
    rintro _ _ ⟨⟩
    rcases HeapAction.of_withScope_eq_error hrun with ⟨injector, hinjector, -⟩ | ⟨name, rfl⟩
    · exact herror error injector ((hsteps heap).symm.trans hinjector)
    · simp [InjectError.IsOutOfMemory]

/-- A unit that runs out of room fails with the request that is refused. -/
theorem injectAt_of_runsOut {tree : Tree} {host : Nat} {before after : List Step} {cells : Block}
    (h : RunsOut (tree.steps host heap.size) (.new heap) before cells after) :
    tree.injectAt host heap =
      .error (.heap (.outOfMemory cells.length (effectAll before (.new heap)).heap.size
        heap.capacity)) (effectAll before (.new heap)).heap :=
  bind_of_error (HeapAction.withScope_of_error
    ((tree.inject_eq_performAll ..).trans h.performAll_eq))

/-- What a unit has written when it runs out of room stays as it is with more room. -/
theorem keeps_written_of_runsOut {tree : Tree} {host : Nat} {before after : List Step}
    {cells : Block} (h : RunsOut (tree.steps host heap.size) (.new heap) before cells after)
    (hle : heap.capacity ≤ capacity) (hhost : host < heap.size) :
    (effectAll before (.new heap)).heap.Keeps
      ((effectAll before (.new heap)).heap.Written heap.size)
      (stateAfter (tree.injectAt host (heap.resize capacity))) := by
  have hnodup : (targets (before ++ .reserve cells :: after)).Nodup := by
    rw [← h.split]
    exact tree.nodup_targets_steps hhost
  have hspares := spares_written hnodup heap capacity
  have hinject : tree.inject host (.new (heap.resize capacity)) =
      performAll (.reserve cells :: after) ((effectAll before (.new heap)).resize capacity) :=
    (tree.inject_eq_performAll ..).trans (h.performAll_resize_eq hle)
  rw [stateAfter_injectAt, hinject]
  exact ⟨hspares.size_le, hspares.getElem?_eq⟩

/-- A unit that is written, or that fails for another reason than want of room, does the same on a
heap of the same cells and a greater capacity.  If there is no room for some cells, the heap is left
with the cells in use at that moment, and on the larger heap every fresh cell that was written keeps
its word to the end.  At any moment of the run, whatever its capacity, no fresh cell that was
written is going to be written with another word.  The host has to be in use before, as it is
written last: a host among the fresh cells would be written over. -/
theorem injectAt_of_more_room (tree : Tree) (host : Nat) (hle : heap.capacity ≤ capacity) :
    (∀ root left, tree.injectAt host heap = .ok root left →
      tree.injectAt host (heap.resize capacity) = .ok root (left.resize capacity)) ∧
    (∀ error left, tree.injectAt host heap = .error error left → ¬ error.IsOutOfMemory →
      tree.injectAt host (heap.resize capacity) = .error error (left.resize capacity)) ∧
    (∀ requested used limit left,
      tree.injectAt host heap = .error (.heap (.outOfMemory requested used limit)) left →
        left.size = used ∧ limit = heap.capacity ∧ heap.capacity < used + requested ∧
          (host < heap.size → left.Keeps (left.Written heap.size)
            (stateAfter (tree.injectAt host (heap.resize capacity))))) ∧
    (host < heap.size → ∀ before middle after inside,
      tree.steps host heap.size = before ++ (middle ++ after) →
        performAll before (.new heap) = .ok () inside →
          inside.heap.Keeps (inside.heap.Written heap.size)
            (stateAfter (performAll middle inside)).heap) := by
  refine ⟨?_, ?_, ?_, ?_⟩
  · intro root left h
    rcases tree.injectAt_resize host hle with ⟨hresize, -⟩ | ⟨before, cells, after, hout⟩
    · rw [hresize, h]
      rfl
    · rw [injectAt_of_runsOut hout] at h
      cases h
  · intro error left h herror
    rcases tree.injectAt_resize host hle with ⟨hresize, -⟩ | ⟨before, cells, after, hout⟩
    · rw [hresize, h]
      rfl
    · rw [injectAt_of_runsOut hout] at h
      cases h
      exact absurd ⟨_, _, _, rfl⟩ herror
  · intro requested used limit left h
    rcases tree.injectAt_resize host hle with ⟨-, herror⟩ | ⟨before, cells, after, hout⟩
    · exact absurd ⟨_, _, _, rfl⟩ (herror _ left h)
    · rw [injectAt_of_runsOut hout] at h
      cases h
      have hshort := hout.short
      rw [capacity_effectAll] at hshort
      exact ⟨rfl, rfl, hshort, keeps_written_of_runsOut hout hle⟩
  · intro hhost before middle after inside hsplit hrun
    obtain ⟨-, rfl⟩ := performAll_eq_ok_iff.mp hrun
    have hnodup : (targets (before ++ middle)).Nodup := by
      have hall := tree.nodup_targets_steps hhost
      rw [hsplit, ← List.append_assoc, targets_append] at hall
      exact (List.nodup_append.mp hall).1
    exact spares_written hnodup heap (effectAll before (.new heap)).heap.capacity

/-- The first part of an application waits for its binder when there is no room for the second.
With more room, the cell that waits gets the word of the binder, and the other fresh cells keep what
they had. -/
theorem injectAt_of_more_room_pending :
    let tree : Tree := .app (.app (.var "x") .era) (.lam "x" .era)
    let left : Heap := ⟨#[.void, .pack .app 0 3, .void, .void, .era], 6⟩
    Heap.capacity ⟨#[.void], 6⟩ ≤ 7 ∧
      tree.injectAt 0 ⟨#[.void], 6⟩ = .error (.heap (.outOfMemory 2 5 6)) left ∧
      tree.injectAt 0 ⟨#[.void], 7⟩ = .ok (.pack .app 0 1)
        ⟨#[.pack .app 0 1, .pack .app 0 3, .pack .lam 0 5, .pack .var 0 5, .era, .sub, .era], 7⟩ ∧
      left.Keeps (left.Written 1) (stateAfter (tree.injectAt 0 ⟨#[.void], 7⟩)) := by
  intro tree left
  have hle : Heap.capacity ⟨#[.void], 6⟩ ≤ 7 := by decide
  have hrun : tree.injectAt 0 ⟨#[.void], 6⟩ = .error (.heap (.outOfMemory 2 5 6)) left := by rfl
  have hkeeps := (tree.injectAt_of_more_room 0 hle).2.2.1 2 5 6 left hrun
  exact ⟨hle, hrun, by rfl, hkeeps.2.2.2 (by decide)⟩

end Tree

end InteractionGraph
