import InteractionGraph.Proofs.Inject.Targets

/-!
# A heap that shows all steps of a term represents it

A heap *shows* a step if its cells hold what the step is meant to leave there in the end.  That is
a property of the heap alone, so it is enough to know the steps of a term and not how they were
carried out: `represents_of_shows` goes down the term and finds each node where its steps put it.
-/

namespace InteractionGraph

open Step

/-- The cells hold what a step is meant to leave there, where uses read binders among
`binders`. -/
def Heap.Shows (heap : Heap) (binders : List Binder) : Step → Prop
  | .store address tag label payload => heap.Holds address tag label payload
  | .bind found => heap.Holds found.slot .sub 0 0
  | .use name address => ∃ found ∈ binders, found.name = name ∧
      heap.Holds address found.tag found.label found.node
  | .unlinked _ _ => False
  | .check _ _ | .reserve _ => True

/-- What is meant to be left in the target of a step is some word. -/
theorem Heap.Shows.holds_of_target? {heap : Heap} {binders : List Binder} {step : Step}
    {address : Nat} (h : heap.Shows binders step) (htarget : step.target? = some address) :
    ∃ tag label payload, heap.Holds address tag label payload := by
  cases step with
  | check tag value | reserve cells => cases htarget
  | unlinked name other => exact h.elim
  | bind found =>
    cases htarget
    exact ⟨_, _, _, h⟩
  | use name other =>
    cases htarget
    obtain ⟨found, _, _, hholds⟩ := h
    exact ⟨_, _, _, hholds⟩
  | store other tag label payload =>
    cases htarget
    exact ⟨_, _, _, h⟩

namespace Tree

variable {heap : Heap} {binders : List Binder}

mutual

/-- A heap that shows the steps of a term represents it.  The cells of the term are not those at
the very beginning of the heap, since its host comes first. -/
theorem represents_of_shows (tree : Tree) (host : Nat) {base : Nat} (hbase : 0 < base)
    (h : ∀ step ∈ tree.steps host base, heap.Shows binders step) :
    heap.Represents binders tree host (marks (tree.steps host base)) := by
  cases tree with
  | era =>
    simp only [steps, List.forall_mem_cons] at h
    exact ⟨h.1, rfl⟩
  | lam name body =>
    simp only [steps, List.forall_mem_cons, List.forall_mem_append] at h
    obtain ⟨-, hslot, hbody, hhost, -⟩ := h
    refine ⟨base, _, hhost, hslot, represents_of_shows body _ (by omega) hbody, ?_⟩
    simp [steps]
  | app first second | op2 operator first second =>
    simp only [steps, List.forall_mem_cons, List.forall_mem_append] at h
    obtain ⟨-, hfirst, hsecond, hhost, -⟩ := h
    refine ⟨base, _, _, hhost, represents_of_shows first _ (by omega) hfirst,
      represents_of_shows second _ (by omega) hsecond, ?_⟩
    simp [steps]
  | sup label first second =>
    simp only [steps, List.forall_mem_cons, List.forall_mem_append] at h
    obtain ⟨-, -, hfirst, hsecond, hhost, -⟩ := h
    refine ⟨base, _, _, hhost, represents_of_shows first _ (by omega) hfirst,
      represents_of_shows second _ (by omega) hsecond, ?_⟩
    simp [steps]
  | dup label first second value body =>
    simp only [steps, List.forall_mem_cons, List.forall_mem_append] at h
    obtain ⟨-, -, hslot, hslot', hvalue, hbody⟩ := h
    refine ⟨base, _, _, hslot, hslot', represents_of_shows value _ (by omega) hvalue,
      represents_of_shows body _ (by omega) hbody, ?_⟩
    simp [steps]
  | ref name id? =>
    cases id? with
    | none =>
      simp only [steps, List.forall_mem_cons] at h
      exact h.1.elim
    | some id =>
      simp only [steps, List.forall_mem_cons] at h
      exact ⟨id, rfl, h.1, rfl⟩
  | var name =>
    simp only [steps, List.forall_mem_cons] at h
    exact ⟨h.1, rfl⟩
  | ctr id fields =>
    by_cases hempty : fields = []
    · subst hempty
      simp only [steps, stepsOfFields, if_pos, List.nil_append, List.forall_mem_cons] at h
      exact ⟨0, [], h.2.1, by simp, rfl, rfl⟩
    · simp only [steps, if_neg hempty, List.forall_mem_cons, List.forall_mem_append] at h
      obtain ⟨-, -, hfields, hhost, -⟩ := h
      have hnode : base = 0 ↔ fields = [] := by
        simp only [hempty, iff_false]
        omega
      refine ⟨base, _, hhost, hnode, representsFields_of_shows fields _ (by omega) hfields, ?_⟩
      simp [steps, hempty]
  | mat scrutinee arms =>
    simp only [steps, List.forall_mem_cons, List.forall_mem_append] at h
    obtain ⟨-, -, hscrutinee, harms, hhost, -⟩ := h
    refine ⟨base, _, _, hhost, represents_of_shows scrutinee _ (by omega) hscrutinee,
      representsArms_of_shows arms _ (by omega) harms, ?_⟩
    simp [steps]
  | u32 value =>
    simp only [steps, List.forall_mem_cons] at h
    exact ⟨h.1, rfl⟩

theorem representsFields_of_shows (fields : List Tree) (address : Nat) {base : Nat}
    (hbase : 0 < base) (h : ∀ step ∈ stepsOfFields fields address base, heap.Shows binders step) :
    heap.RepresentsFields binders fields address (marks (stepsOfFields fields address base)) := by
  cases fields with
  | nil => exact rfl
  | cons field fields =>
    simp only [stepsOfFields, List.forall_mem_append] at h
    refine ⟨_, _, represents_of_shows field _ hbase h.1,
      representsFields_of_shows fields _ (by omega) h.2, ?_⟩
    simp [stepsOfFields]

theorem representsArms_of_shows (arms : List (UInt32 × Tree)) (address : Nat) {base : Nat}
    (hbase : 0 < base) (h : ∀ step ∈ stepsOfArms arms address base, heap.Shows binders step) :
    heap.RepresentsArms binders arms address (marks (stepsOfArms arms address base)) := by
  cases arms with
  | nil => exact rfl
  | cons arm arms =>
    obtain ⟨id, body⟩ := arm
    simp only [stepsOfArms, List.forall_mem_cons, List.forall_mem_append] at h
    obtain ⟨hid, hbody, harms⟩ := h
    refine ⟨_, _, hid, represents_of_shows body _ hbase hbody,
      representsArms_of_shows arms _ (by omega) harms, ?_⟩
    simp [stepsOfArms]

end

end Tree

end InteractionGraph
