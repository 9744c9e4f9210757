import InteractionGraph.Inject.Unit
import InteractionGraph.Proofs.Inject.Represented
import InteractionGraph.Proofs.Inject.Settled
import InteractionGraph.Proofs.Inject.Unbound
import Mathlib

/-!
# The graph of a unit

Writing a unit succeeds exactly when its steps do, its uses all have binders, and its host can be
read (`Tree.injectAt_eq_ok_iff`).  The heap that is left then shows every step of the unit
(`shows_injectAt`), which gives the two results of this module:

* `represents_of_injectAt`: the heap represents the unit in its host, and the blocks of its nodes
  are the fresh cells, none of which is void;
* `uses_of_injectAt`: the cell of every use holds what a second pass over the marks would put
  there, the word of the last binder of its name before it, and of the first one behind it if there
  is none before.  The slots of all binders still hold their placeholder.
-/

namespace InteractionGraph

open Step

variable {heap heap' : Heap} {host : Nat} {root : Word}

/-! ## When a unit is written -/

theorem HeapAction.withScope_eq_ok_iff {injection : Injection Unit} {done : Unit} :
    HeapAction.withScope injection heap = .ok done heap' ↔
      ∃ injector, injection (.new heap) = .ok () injector ∧
        (∀ name, ¬ injector.scope.Waits name) ∧ heap' = injector.heap := by
  unfold HeapAction.withScope
  cases hrun : injection (.new heap) with
  | error error injector => simp
  | ok value injector =>
    simp only [Injector.finish, EStateM.Result.ok.injEq, true_and, exists_eq_left']
    rw [← Scope.unbound?_eq_none_iff]
    cases injector.scope.unbound? with
    | some name => simp
    | none => simp [eq_comm]

theorem HeapAction.withScope_of_error {injection : Injection Unit} {error : InjectError}
    {injector : Injector} (h : injection (.new heap) = .error error injector) :
    HeapAction.withScope injection heap = .error error injector.heap := by
  unfold HeapAction.withScope
  rw [h]

theorem HeapAction.withScope_of_unbound? {injection : Injection Unit} {done : Unit}
    {injector : Injector} {name : String} (h : injection (.new heap) = .ok done injector)
    (hname : injector.scope.unbound? = some name) :
    HeapAction.withScope injection heap = .error (.unboundVariable name) injector.heap := by
  unfold HeapAction.withScope Injector.finish
  rw [h]
  simp only [hname]

theorem HeapAction.read_eq_ok_iff {address : Nat} {word : Word} :
    HeapAction.read address heap = .ok word heap' ↔
      heap.cells[address]? = some word ∧ heap' = heap := by
  unfold HeapAction.read HeapAction.ofChange Heap.read
  cases h : heap.cells[address]? with
  | some other => simp [h, Except.map, eq_comm]
  | none => simp [h, Except.map]

theorem Tree.injectAt_eq_ok_iff {tree : Tree} :
    tree.injectAt host heap = .ok root heap' ↔
      ReadyAll (tree.steps host heap.size) (.new heap) ∧
        (∀ name, ¬ (effectAll (tree.steps host heap.size) (.new heap)).scope.Waits name) ∧
        heap' = (effectAll (tree.steps host heap.size) (.new heap)).heap ∧
        heap'.cells[host]? = some root := by
  simp only [injectAt, bind_eq_ok_iff, HeapAction.withScope_eq_ok_iff, HeapAction.read_eq_ok_iff,
    inject_eq_performAll, performAll_eq_ok_iff]
  constructor
  · rintro ⟨_, _, ⟨_, ⟨hready, rfl⟩, hbound, rfl⟩, hroot, rfl⟩
    exact ⟨hready, hbound, rfl, hroot⟩
  · rintro ⟨hready, hbound, rfl, hroot⟩
    exact ⟨(), _, ⟨_, ⟨hready, rfl⟩, hbound, rfl⟩, hroot, rfl⟩

/-! ## What is left behind -/

namespace Tree

variable {tree : Tree}

/-- No two steps of a unit have the same target, as its host was handed out before. -/
theorem nodup_targets_steps (tree : Tree) (hhost : host < heap.size) :
    (targets (tree.steps host heap.size)).Nodup := by
  rw [(tree.targets_steps_perm host heap.size).nodup_iff, List.nodup_cons]
  refine ⟨?_, List.nodup_range'⟩
  rw [List.mem_range'_1]
  omega

theorem size_of_injectAt (h : tree.injectAt host heap = .ok root heap') :
    heap'.size = heap.size + tree.cost := by
  obtain ⟨_, _, rfl, _⟩ := injectAt_eq_ok_iff.mp h
  rw [size_effectAll, reserved_steps]
  rfl

theorem settled_of_injectAt (hhost : host < heap.size)
    (h : tree.injectAt host heap = .ok root heap') :
    Settled heap' (tree.steps host heap.size) := by
  obtain ⟨hready, _, rfl, _⟩ := injectAt_eq_ok_iff.mp h
  exact settled_effectAll (tree.nodup_targets_steps hhost) hready

/-- Every use in a unit that is written belongs to a binder. -/
theorem resolve_of_injectAt {before after : List Step} {name : String} {address : Nat}
    (h : tree.injectAt host heap = .ok root heap')
    (hsplit : tree.steps host heap.size = before ++ .use name address :: after) :
    ∃ found, Mark.resolve (marks before) (marks after) name = some found := by
  obtain ⟨_, hbound, _, _⟩ := injectAt_eq_ok_iff.mp h
  cases hresolve : Mark.resolve (marks before) (marks after) name with
  | some found => exact ⟨found, rfl⟩
  | none =>
    refine absurd (waits_effectAll_iff.mpr ⟨⟨address, ?_⟩, ?_⟩) (hbound name)
    · simp [hsplit]
    · have hlast := lastBinder?_eq_none_of_resolve address hresolve
      rw [← hsplit] at hlast
      intro found hbind
      exact Mark.lastBinder?_eq_none_iff.mp hlast found (mem_binders_iff.mpr hbind)

theorem holds_of_injectAt {before after : List Step} {name : String} {address : Nat}
    (hhost : host < heap.size) (h : tree.injectAt host heap = .ok root heap')
    (hsplit : tree.steps host heap.size = before ++ .use name address :: after) :
    ∃ found, Mark.resolve (marks before) (marks after) name = some found ∧
      heap'.Holds address found.tag found.label found.node := by
  obtain ⟨found, hresolve⟩ := resolve_of_injectAt h hsplit
  exact ⟨found, hresolve,
    (settled_of_injectAt hhost h).used before name address after found hsplit hresolve⟩

/-- The heap shows every step of a unit that is written. -/
theorem shows_of_injectAt (hhost : host < heap.size)
    (h : tree.injectAt host heap = .ok root heap') :
    ∀ step ∈ tree.steps host heap.size,
      heap'.Shows (Mark.binders (marks (tree.steps host heap.size))) step := by
  have hsettled := settled_of_injectAt hhost h
  intro step hstep
  cases step with
  | check tag value | reserve cells => trivial
  | unlinked name address =>
    obtain ⟨hready, _, _, _⟩ := injectAt_eq_ok_iff.mp h
    obtain ⟨before, after, hsplit⟩ := List.append_of_mem hstep
    rw [hsplit, readyAll_append] at hready
    exact hready.2.1.1
  | bind found => exact hsettled.slots found hstep
  | use name address =>
    obtain ⟨before, after, hsplit⟩ := List.append_of_mem hstep
    obtain ⟨found, hresolve, hholds⟩ := holds_of_injectAt hhost h hsplit
    refine ⟨found, ?_, Mark.name_of_resolve hresolve, hholds⟩
    rw [hsplit]
    exact mem_binders_marks_of_resolve hresolve
  | store address tag label payload => exact hsettled.stored address tag label payload hstep

/-- Every cell that is handed out to a unit holds the word of a node in the end. -/
theorem ne_void_of_injectAt (hhost : host < heap.size)
    (h : tree.injectAt host heap = .ok root heap') {address : Nat} (hfresh : heap.size ≤ address)
    (hlt : address < heap'.size) :
    ∃ word, heap'.cells[address]? = some word ∧ word ≠ Word.void := by
  have hmem : address ∈ targets (tree.steps host heap.size) := by
    rw [(tree.targets_steps_perm host heap.size).mem_iff, List.mem_cons, List.mem_range'_1,
      ← size_of_injectAt h]
    exact .inr ⟨hfresh, hlt⟩
  obtain ⟨step, hstep, htarget⟩ := mem_targets_iff.mp hmem
  obtain ⟨tag, label, payload, hholds⟩ :=
    (shows_of_injectAt hhost h step hstep).holds_of_target? htarget
  exact hholds.ne_void

/-- A unit that is written is represented in its host, and the blocks of its nodes are the fresh
cells.  The host has to be in use before, as it is written last: a host among the fresh cells would
be written over. -/
theorem represents_of_injectAt (hhost : host < heap.size)
    (h : tree.injectAt host heap = .ok root heap') :
    ∃ marks, heap'.Represents (Mark.binders marks) tree host marks ∧
      Block.Tile (Mark.blocks marks) heap.size heap'.size ∧
      ∀ address, heap.size ≤ address → address < heap'.size →
        ∃ word, heap'.cells[address]? = some word ∧ word ≠ Word.void := by
  refine ⟨marks (tree.steps host heap.size), ?_, ?_, ?_⟩
  · exact represents_of_shows tree host (by omega) (shows_of_injectAt hhost h)
  · rw [size_of_injectAt h]
    exact (tree.consecutive_steps host heap.size).tile
  · intro address hfresh hlt
    exact ne_void_of_injectAt hhost h hfresh hlt

/-- The body of a duplication is found in the host, and no word there points at the block. -/
theorem represents_of_injectAt_dup :
    ∃ root heap', (Tree.dup 7 "a" "b" (.u32 5) (.app (.var "b") (.var "a"))).injectAt 0
        ⟨#[.void], 6⟩ = .ok root heap' ∧
      heap'.cells = #[.pack .app 0 4, .sub, .sub, .pack .w32 0 5, .pack .dp1 7 1, .pack .dp0 7 1] ∧
      ∃ marks, heap'.Represents (Mark.binders marks)
          (.dup 7 "a" "b" (.u32 5) (.app (.var "b") (.var "a"))) 0 marks ∧
        Block.Tile (Mark.blocks marks) 1 heap'.size ∧
        ∀ address, 1 ≤ address → address < heap'.size →
          ∃ word, heap'.cells[address]? = some word ∧ word ≠ Word.void := by
  have hrun : (Tree.dup 7 "a" "b" (.u32 5) (.app (.var "b") (.var "a"))).injectAt 0
      ⟨#[.void], 6⟩ = .ok (.pack .app 0 4)
        ⟨#[.pack .app 0 4, .sub, .sub, .pack .w32 0 5, .pack .dp1 7 1, .pack .dp0 7 1], 6⟩ := rfl
  have hhost : 0 < Heap.size ⟨#[.void], 6⟩ := by decide
  exact ⟨_, _, hrun, rfl, represents_of_injectAt hhost hrun⟩

/-- Writing a unit in one pass puts the word into the cell of each use that a second pass would put
there.  The host has to be in use before, as it is written last: a host among the fresh cells would
be written over. -/
theorem uses_of_injectAt (hhost : host < heap.size)
    (h : tree.injectAt host heap = .ok root heap') :
    ∃ marks, heap'.Represents (Mark.binders marks) tree host marks ∧
      Block.Consecutive (Mark.blocks marks) heap.size heap'.size ∧
      (∀ before name address after, marks = before ++ .use name address :: after →
        ∃ found, Mark.resolve before after name = some found ∧
          heap'.Holds address found.tag found.label found.node) ∧
      ∀ found, .binder found ∈ marks → heap'.Holds found.slot .sub 0 0 := by
  refine ⟨marks (tree.steps host heap.size), ?_, ?_, ?_, ?_⟩
  · exact represents_of_shows tree host (by omega) (shows_of_injectAt hhost h)
  · rw [size_of_injectAt h]
    exact tree.consecutive_steps host heap.size
  · intro before name address after hmarks
    obtain ⟨first, second, hsplit, rfl, rfl⟩ := exists_use_of_marks_eq hmarks
    exact holds_of_injectAt hhost h hsplit
  · intro found hfound
    refine (settled_of_injectAt hhost h).slots found (mem_binders_iff.mp ?_)
    exact List.mem_filterMap.mpr ⟨_, hfound, rfl⟩

/-- The first use of the name waits for the binder behind it, and the second one reads the binder
that came up last. -/
theorem uses_of_injectAt_shadowed :
    ∃ root heap', (Tree.app (.var "x") (.app (.lam "x" .era) (.lam "x" (.var "x")))).injectAt 0
        ⟨#[.void], 9⟩ = .ok root heap' ∧
      heap'.cells[1]? = some (.pack .var 0 5) ∧ heap'.cells[8]? = some (.pack .var 0 7) ∧
      ∃ marks, heap'.Represents (Mark.binders marks)
          (.app (.var "x") (.app (.lam "x" .era) (.lam "x" (.var "x")))) 0 marks ∧
        Block.Consecutive (Mark.blocks marks) 1 heap'.size ∧
        (∀ before name address after, marks = before ++ .use name address :: after →
          ∃ found, Mark.resolve before after name = some found ∧
            heap'.Holds address found.tag found.label found.node) ∧
        ∀ found, .binder found ∈ marks → heap'.Holds found.slot .sub 0 0 := by
  have hrun : (Tree.app (.var "x") (.app (.lam "x" .era) (.lam "x" (.var "x")))).injectAt 0
      ⟨#[.void], 9⟩ = .ok (.pack .app 0 1)
        ⟨#[.pack .app 0 1, .pack .var 0 5, .pack .app 0 3, .pack .lam 0 5, .pack .lam 0 7, .sub,
          .era, .sub, .pack .var 0 7], 9⟩ := by cbv
  have hhost : 0 < Heap.size ⟨#[.void], 9⟩ := by decide
  exact ⟨_, _, hrun, rfl, rfl, uses_of_injectAt hhost hrun⟩

end Tree

end InteractionGraph
