import InteractionGraph.Proofs.Inject.Graph
import InteractionGraph.Proofs.Inject.Guarded

/-!
# When a unit is written, and why it is not

Whether a unit is written depends on three things that can be told from the term and the size of
the heap: what its nodes ask for in turn, whether all of that is met, and whether every name that is
used is bound somewhere.  `Tree.outcome_injectAt` puts them together.

A name without a binder is noticed only after all requests were met, so the first request that is
refused always comes before it, however early the use of the name was.
-/

namespace InteractionGraph

open Step

namespace Tree

variable {tree : Tree} {heap heap' : Heap} {host : Nat}

/-! ## Names that are left without a binder -/

theorem exists_use_iff {steps : List Step} {name : String} :
    (∃ address, .use name address ∈ steps) ↔ .use name ∈ Step.requests steps := by
  simp only [Step.requests, List.mem_filterMap]
  constructor
  · rintro ⟨address, huse⟩
    exact ⟨_, huse, rfl⟩
  · rintro ⟨step, hstep, hrequest⟩
    cases step <;> cases hrequest
    exact ⟨_, hstep⟩

theorem exists_bind_iff {steps : List Step} {name : String} :
    (∃ found, .bind found ∈ steps ∧ found.name = name) ↔ .bind name ∈ Step.requests steps := by
  simp only [Step.requests, List.mem_filterMap]
  constructor
  · rintro ⟨found, hbind, rfl⟩
    exact ⟨_, hbind, rfl⟩
  · rintro ⟨step, hstep, hrequest⟩
    cases step <;> cases hrequest
    exact ⟨_, hstep, rfl⟩

/-- After the steps of a term, a name waits if the term uses it and does not bind it anywhere. -/
theorem waits_steps_iff (tree : Tree) (host base : Nat) {name : String} :
    (effectAll (tree.steps host base) (.new heap)).scope.Waits name ↔
      tree.Uses name ∧ ¬ tree.Binds name := by
  rw [waits_effectAll_iff, exists_use_iff, requests_steps, use_mem_requests_iff,
    ← bind_mem_requests_iff, ← requests_steps tree host base, ← exists_bind_iff]
  simp only [not_exists, not_and, ne_eq]

theorem closed_iff (tree : Tree) (host base : Nat) :
    tree.Closed ↔
      ∀ name, ¬ (effectAll (tree.steps host base) (.new heap)).scope.Waits name := by
  simp only [waits_steps_iff, not_and, not_not, Closed]

/-! ## The three outcomes -/

/-- A run of the steps of a term fails only if a request is refused. -/
theorem performAll_steps (tree : Tree) (hvalid : heap.Valid) (hhost : host < heap.size) :
    (firstError? heap.capacity heap.size tree.requests = none →
      ReadyAll (tree.steps host heap.size) (.new heap)) ∧
      ∀ error, firstError? heap.capacity heap.size tree.requests = some error →
        ∃ left, performAll (tree.steps host heap.size) (.new heap) = .error error left := by
  rw [← requests_steps tree host heap.size]
  exact (run_of_guarded (tree.guarded_steps_of_lt hhost) (Injector.sound_new heap) hvalid).outcome

theorem injectAt_of_refused {error : InjectError} (hvalid : heap.Valid) (hhost : host < heap.size)
    (h : firstError? heap.capacity heap.size tree.requests = some error) :
    ∃ heap', tree.injectAt host heap = .error error heap' := by
  obtain ⟨left, hleft⟩ := (tree.performAll_steps hvalid hhost).2 error h
  exact ⟨left.heap,
    bind_of_error (HeapAction.withScope_of_error ((inject_eq_performAll ..).trans hleft))⟩

theorem injectAt_of_not_closed (hvalid : heap.Valid) (hhost : host < heap.size)
    (h : firstError? heap.capacity heap.size tree.requests = none) (hopen : ¬ tree.Closed) :
    ∃ name heap', tree.injectAt host heap = .error (.unboundVariable name) heap' ∧
      (tree.Uses name ∧ ¬ tree.Binds name) ∧
      ∀ other, tree.Uses other → ¬ tree.Binds other → utf8 name ≤ utf8 other := by
  have hready := (tree.performAll_steps hvalid hhost).1 h
  have hrun : performAll (tree.steps host heap.size) (.new heap) = .ok () _ :=
    performAll_eq_ok_iff.mpr ⟨hready, rfl⟩
  cases hunbound : (effectAll (tree.steps host heap.size) (.new heap)).scope.unbound? with
  | none =>
    rw [Scope.unbound?_eq_none_iff] at hunbound
    exact absurd ((tree.closed_iff host heap.size).mpr hunbound) hopen
  | some name =>
    obtain ⟨hwaits, hleast⟩ := Scope.least_of_unbound? hunbound
    simp only [waits_steps_iff, and_imp] at hwaits hleast
    have hscope : HeapAction.withScope (tree.inject host) heap =
        .error (.unboundVariable name) (effectAll (tree.steps host heap.size) (.new heap)).heap :=
      HeapAction.withScope_of_unbound? ((inject_eq_performAll ..).trans hrun) hunbound
    exact ⟨name, _, bind_of_error hscope, hwaits, hleast⟩

theorem injectAt_of_closed (hvalid : heap.Valid) (hhost : host < heap.size)
    (h : firstError? heap.capacity heap.size tree.requests = none) (hclosed : tree.Closed) :
    ∃ root heap', tree.injectAt host heap = .ok root heap' := by
  have hready := (tree.performAll_steps hvalid hhost).1 h
  have hlt : host < (effectAll (tree.steps host heap.size) (.new heap)).heap.size := by
    rw [size_effectAll]
    exact Nat.lt_add_right _ hhost
  exact ⟨_, _, injectAt_eq_ok_iff.mpr
    ⟨hready, (tree.closed_iff host heap.size).mp hclosed, rfl, Array.getElem?_eq_getElem hlt⟩⟩

/-- Whether a unit is written can be told from what it asks for. -/
theorem exists_injectAt_eq_ok_iff (hvalid : heap.Valid) (hhost : host < heap.size) :
    (∃ root heap', tree.injectAt host heap = .ok root heap') ↔
      firstError? heap.capacity heap.size tree.requests = none ∧ tree.Closed := by
  refine ⟨?_, fun ⟨hgranted, hclosed⟩ => injectAt_of_closed hvalid hhost hgranted hclosed⟩
  rintro ⟨root, heap', h⟩
  have hgranted : firstError? heap.capacity heap.size tree.requests = none := by
    rw [Option.eq_none_iff_forall_ne_some]
    intro error herror
    obtain ⟨left, hleft⟩ := injectAt_of_refused hvalid hhost herror
    rw [h] at hleft
    cases hleft
  refine ⟨hgranted, ?_⟩
  by_contra hopen
  obtain ⟨name, left, hleft, -⟩ := injectAt_of_not_closed hvalid hhost hgranted hopen
  rw [h] at hleft
  cases hleft

/-! ## The outcome -/

/-- A unit is written exactly when its labels fit, it is linked, there is room for its cells and
every name that is used is bound anywhere.  The heap then grows by the cost of the unit.  Otherwise
the error is that of the first request that is refused, or, if none is, the first of the names
without a binder in the order of their bytes. -/
theorem outcome_injectAt (tree : Tree) (hvalid : heap.Valid) (hhost : host < heap.size) :
    ((∃ root heap', tree.injectAt host heap = .ok root heap') ↔
      tree.LabelsFit ∧ tree.Linked ∧ heap.size + tree.cost ≤ heap.capacity ∧ tree.Closed) ∧
    (∀ root heap', tree.injectAt host heap = .ok root heap' →
      heap'.size = heap.size + tree.cost) ∧
    ∀ error, (∃ heap', tree.injectAt host heap = .error error heap') ↔
      firstError? heap.capacity heap.size tree.requests = some error ∨
        (tree.LabelsFit ∧ tree.Linked ∧ heap.size + tree.cost ≤ heap.capacity) ∧
          ∃ name, error = .unboundVariable name ∧ (tree.Uses name ∧ ¬ tree.Binds name) ∧
            ∀ other, tree.Uses other → ¬ tree.Binds other → utf8 name ≤ utf8 other := by
  have hmet : firstError? heap.capacity heap.size tree.requests = none ↔
      tree.LabelsFit ∧ tree.Linked ∧ heap.size + tree.cost ≤ heap.capacity :=
    firstError?_requests_eq_none_iff hvalid.1
  refine ⟨?_, fun root heap' h => size_of_injectAt h, ?_⟩
  · constructor
    · rintro ⟨root, heap', h⟩
      cases hrefused : firstError? heap.capacity heap.size tree.requests with
      | some error =>
        obtain ⟨left, hleft⟩ := injectAt_of_refused hvalid hhost hrefused
        rw [h] at hleft
        cases hleft
      | none =>
        obtain ⟨hfit, hlinked, hroom⟩ := hmet.mp hrefused
        obtain ⟨_, hbound, _, _⟩ := injectAt_eq_ok_iff.mp h
        exact ⟨hfit, hlinked, hroom, (tree.closed_iff host heap.size).mpr hbound⟩
    · rintro ⟨hfit, hlinked, hroom, hclosed⟩
      exact injectAt_of_closed hvalid hhost (hmet.mpr ⟨hfit, hlinked, hroom⟩) hclosed
  · intro error
    constructor
    · rintro ⟨heap', h⟩
      cases hrefused : firstError? heap.capacity heap.size tree.requests with
      | some refused =>
        obtain ⟨left, hleft⟩ := injectAt_of_refused hvalid hhost hrefused
        rw [h] at hleft
        cases hleft
        exact .inl rfl
      | none =>
        by_cases hclosed : tree.Closed
        · obtain ⟨root, left, hleft⟩ := injectAt_of_closed hvalid hhost hrefused hclosed
          rw [h] at hleft
          cases hleft
        · obtain ⟨name, left, hleft, hname⟩ :=
            injectAt_of_not_closed hvalid hhost hrefused hclosed
          rw [h] at hleft
          cases hleft
          exact .inr ⟨hmet.mp hrefused, name, rfl, hname⟩
    · rintro (hrefused | ⟨hgranted, name, rfl, hname, hleast⟩)
      · exact injectAt_of_refused hvalid hhost hrefused
      · have hopen : ¬ tree.Closed := fun hclosed => hname.2 (hclosed name hname.1)
        obtain ⟨other, heap', h, hother, hotherLeast⟩ :=
          injectAt_of_not_closed hvalid hhost (hmet.mpr hgranted) hopen
        -- Both names are the least one.
        have hsame : other = name := by
          refine le_antisymm ?_ ?_
          · exact utf8_le_utf8_iff.mp (hotherLeast name hname.1 hname.2)
          · exact utf8_le_utf8_iff.mp (hleast other hother.1 hother.2)
        exact ⟨heap', hsame ▸ h⟩

/-- The identity needs two cells.  On a heap with room for one it fails when it asks for them. -/
theorem outcome_injectAt_identity :
    Heap.Valid ⟨#[.void], 2⟩ ∧ 0 < Heap.size ⟨#[.void], 2⟩ ∧
      ∃ heap', (Tree.lam "x" (.var "x")).injectAt 0 ⟨#[.void], 2⟩ =
        .error (.heap (.outOfMemory 2 1 2)) heap' := by
  have hvalid : Heap.Valid ⟨#[.void], 2⟩ := by decide
  have hhost : 0 < Heap.size ⟨#[.void], 2⟩ := by decide
  have houtcome := outcome_injectAt (.lam "x" (.var "x")) hvalid hhost
  exact ⟨hvalid, hhost, (houtcome.2.2 _).mpr (.inl rfl)⟩

end Tree

end InteractionGraph
