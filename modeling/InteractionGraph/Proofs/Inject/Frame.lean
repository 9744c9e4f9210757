import InteractionGraph.Book.Inject
import InteractionGraph.Proofs.Inject.Graph
import InteractionGraph.Proofs.Inject.Guarded

/-!
# What writing a term leaves alone

A term that is written, or that could not be written to its end, has changed no cell of the heap
but its host and those that were handed out meanwhile (`Tree.keeps_injectAt`).  The host is written
in the very last step of all, so that every failure on the way leaves it alone too.  Only a name
without a binder is noticed later (`Tree.keeps_injectAt_of_error`).

A binder writes far from where it stands: into the cells of all uses that wait for it.  What keeps
these apart from the cells in use is an invariant of the scope, that no waiting cell is one of them.
It holds of a fresh scope, and a step makes nothing wait but the cell that it is about
(`Step.mem_sites_scopeAfter`).
-/

namespace InteractionGraph

open Injection Step

/-- The state that an action leaves, whether it succeeds or fails. -/
def stateAfter {ε σ α : Type} : EStateM.Result ε σ α → σ
  | .ok _ state => state
  | .error _ state => state

/-! ## Cells that are kept -/

/-- The cells of `before` are still there in `after`, and those at the addresses `kept` have the
words that they had. -/
structure Heap.Keeps (kept : Nat → Prop) (before after : Heap) : Prop where
  size_le : before.size ≤ after.size
  getElem?_eq : ∀ address < before.size, kept address →
    after.cells[address]? = before.cells[address]?

namespace Heap.Keeps

variable {kept other : Nat → Prop} {before between after : Heap}

theorem refl (kept : Nat → Prop) (heap : Heap) : heap.Keeps kept heap :=
  ⟨Nat.le_refl _, fun _ _ _ => rfl⟩

theorem trans (hfirst : before.Keeps kept between) (hsecond : between.Keeps kept after) :
    before.Keeps kept after where
  size_le := Nat.le_trans hfirst.size_le hsecond.size_le
  getElem?_eq := by
    intro address hlt hkept
    rw [hsecond.getElem?_eq address (Nat.lt_of_lt_of_le hlt hfirst.size_le) hkept]
    exact hfirst.getElem?_eq address hlt hkept

/-- Fewer cells are kept as well. -/
theorem mono (h : before.Keeps kept after)
    (himp : ∀ address < before.size, other address → kept address) : before.Keeps other after :=
  ⟨h.size_le, fun address hlt hother => h.getElem?_eq address hlt (himp address hlt hother)⟩

theorem grow (kept : Nat → Prop) (heap : Heap) (count : Nat) :
    heap.Keeps kept (heap.grow count) where
  size_le := by simp
  getElem?_eq := fun _ hlt _ => getElem?_grow_of_lt hlt

theorem set {heap : Heap} {address : Nat} (h : ¬ kept address) (word : Word) :
    heap.Keeps kept (heap.set address word) where
  size_le := by simp
  getElem?_eq := by
    intro other _ hother
    rw [getElem?_set, if_neg]
    rintro ⟨rfl, _⟩
    exact h hother

end Heap.Keeps

/-! ## Operations of an injector -/

namespace Injection

variable {α β : Type} {kept : Nat → Prop} {injector : Injector}

/-- The action keeps cells, whether it succeeds or fails. -/
def Spares (kept : Nat → Prop) (injector : Injector) (action : Injection α) : Prop :=
  injector.heap.Keeps kept (stateAfter (action injector)).heap

theorem Spares.pure (value : α) : Spares kept injector (pure value : Injection α) :=
  .refl kept injector.heap

theorem Spares.bind {first : Injection α} {next : α → Injection β}
    (hfirst : Spares kept injector first)
    (hnext : ∀ value between, first injector = .ok value between →
      Spares kept between (next value)) : Spares kept injector (first >>= next) := by
  unfold Spares at *
  cases hrun : first injector with
  | ok value between =>
    rw [hrun] at hfirst
    rw [bind_of_ok hrun]
    exact hfirst.trans (hnext value between hrun)
  | error error left =>
    rw [hrun] at hfirst
    rw [bind_of_error hrun]
    exact hfirst

/-- A request that is refused leaves everything as it is. -/
theorem alloc_of_error {count : Nat} {error : InjectError} {left : Injector}
    (h : alloc count injector = .error error left) : left = injector := by
  unfold alloc at h
  split at h <;> cases h
  rfl

theorem spares_alloc (count : Nat) : Spares kept injector (alloc count) := by
  unfold Spares
  cases hrun : alloc count injector with
  | ok address left =>
    obtain ⟨_, _, rfl⟩ := alloc_eq_ok_iff.mp hrun
    exact .grow kept injector.heap count
  | error error left =>
    rw [alloc_of_error hrun]
    exact .refl kept injector.heap

/-- A word that cannot be stored leaves everything as it is. -/
theorem write_of_error {address : Nat} {word : Word} {error : InjectError} {left : Injector}
    (h : write address word injector = .error error left) : left = injector := by
  unfold write at h
  split at h <;> cases h
  rfl

theorem spares_write {address : Nat} (h : ¬ kept address) (word : Word) :
    Spares kept injector (write address word) := by
  unfold Spares
  cases hrun : write address word injector with
  | ok done left =>
    obtain ⟨_, rfl⟩ := write_eq_ok_iff.mp hrun
    exact .set h word
  | error error left =>
    rw [write_of_error hrun]
    exact .refl kept injector.heap

/-- No word is stored to find out whether its fields fit. -/
theorem stateAfter_encode (tag : Tag) (label payload : Nat) (injector : Injector) :
    stateAfter (encode tag label payload injector) = injector := by
  unfold encode
  cases Word.encode? tag label payload <;> rfl

theorem spares_encode (tag : Tag) (label payload : Nat) :
    Spares kept injector (encode tag label payload) := by
  unfold Spares
  rw [stateAfter_encode]
  exact .refl kept injector.heap

theorem stateAfter_checkLabel (tag : Tag) (value : Nat) (injector : Injector) :
    stateAfter (checkLabel tag value injector) = injector := by
  unfold checkLabel
  split <;> rfl

theorem spares_writeAll {addresses : List Nat} (h : ∀ address ∈ addresses, ¬ kept address)
    (word : Word) : Spares kept injector (writeAll word addresses) := by
  induction addresses generalizing injector with
  | nil => exact .pure ()
  | cons address addresses ih =>
    obtain ⟨haddress, hothers⟩ := List.forall_mem_cons.mp h
    exact .bind (spares_write haddress word) fun _ _ _ => ih hothers

theorem spares_bindName {name : String} {slot : Nat} (hslot : ¬ kept slot)
    (hsites : ∀ site ∈ injector.scope.sites name, ¬ kept site) (word : Word) :
    Spares kept injector (bindName name slot word) := by
  refine .bind (spares_write hslot Word.sub) ?_
  intro _ between hwrite
  obtain ⟨_, rfl⟩ := write_eq_ok_iff.mp hwrite
  refine .bind (.refl kept _) ?_
  rintro waiting left ⟨⟩
  exact spares_writeAll hsites word

theorem spares_useName {name : String} {host : Nat} (h : ¬ kept host) :
    Spares kept injector (useName name host) := by
  by_cases hbound : ∃ word, injector.scope[name]? = some (.bound word)
  · obtain ⟨word, hword⟩ := hbound
    unfold Spares
    rw [useName_of_bound hword]
    exact spares_write h word
  · unfold Spares
    rw [useName_of_not_bound (not_exists.mp hbound)]
    exact .refl kept injector.heap

end Injection

namespace HeapAction

/-- Whatever comes of an action, the heap that it leaves is as `post` says, and an error that it
ends with is `allowed`. -/
structure Leaves {α : Type} (post : Heap → Prop) (allowed : InjectError → Prop)
    (result : EStateM.Result InjectError Heap α) : Prop where
  state : post (stateAfter result)
  error : ∀ error left, result = .error error left → allowed error

namespace Leaves

variable {α β : Type} {heap : Heap} {post other : Heap → Prop} {allowed : InjectError → Prop}

theorem of_state {result : EStateM.Result InjectError Heap α} (h : post (stateAfter result)) :
    Leaves post (fun _ => True) result :=
  ⟨h, fun _ _ _ => trivial⟩

theorem ok (value : α) (h : post heap) : Leaves post allowed (.ok value heap) := ⟨h, nofun⟩

theorem refused {error : InjectError} (h : post heap) (herror : allowed error) :
    Leaves post allowed (.error error heap : EStateM.Result InjectError Heap α) := by
  refine ⟨h, ?_⟩
  rintro _ _ ⟨⟩
  exact herror

theorem mono {result : EStateM.Result InjectError Heap α} (h : Leaves post allowed result)
    (himp : post (stateAfter result) → other (stateAfter result)) : Leaves other allowed result :=
  ⟨himp h.state, h.error⟩

/-- One action after the other.  The first has to leave what both of them do, since it may be the
one that fails. -/
theorem bind {first : HeapAction α} {next : α → HeapAction β}
    (hfirst : Leaves post allowed (first heap))
    (hnext : ∀ value between, first heap = .ok value between → post between →
      Leaves post allowed (next value between)) : Leaves post allowed ((first >>= next) heap) := by
  cases hrun : first heap with
  | ok value between =>
    rw [hrun] at hfirst
    rw [bind_of_ok hrun]
    exact hnext value between hrun hfirst.state
  | error error left =>
    rw [hrun] at hfirst
    rw [bind_of_error hrun]
    exact refused hfirst.state (hfirst.error error left rfl)

end Leaves

variable {α : Type} {heap left : Heap} {error : InjectError}

/-- A scope of its own does not change what becomes of the heap. -/
theorem stateAfter_withScope (injection : Injection α) (heap : Heap) :
    stateAfter (withScope injection heap) = (stateAfter (injection (.new heap))).heap := by
  unfold withScope
  cases injection (.new heap) with
  | error error left => rfl
  | ok value left =>
    simp only
    cases left.finish <;> rfl

/-- In a scope of its own, a step fails for its own reasons or because of an unbound name. -/
theorem of_withScope_eq_error {injection : Injection α}
    (h : withScope injection heap = .error error left) :
    (∃ injector, injection (.new heap) = .error error injector ∧ left = injector.heap) ∨
      ∃ name, error = .unboundVariable name := by
  unfold withScope at h
  cases hrun : injection (.new heap) with
  | error refused injector =>
    rw [hrun] at h
    cases h
    exact .inl ⟨injector, rfl, rfl⟩
  | ok value injector =>
    simp only [hrun, Injector.finish] at h
    cases hunbound : injector.scope.unbound? with
    | none =>
      simp only [hunbound] at h
      cases h
    | some name =>
      simp only [hunbound] at h
      cases h
      exact .inr ⟨name, rfl⟩

theorem of_ofChange_eq_ok {change : Heap → Except HeapError (α × Heap)} {value : α}
    (h : ofChange change heap = .ok value left) : change heap = .ok (value, left) := by
  unfold ofChange at h
  cases hchange : change heap with
  | ok reply =>
    rw [hchange] at h
    cases h
    rfl
  | error refused =>
    rw [hchange] at h
    cases h

/-- A change that is refused leaves the heap as it is. -/
theorem of_ofChange_eq_error {change : Heap → Except HeapError (α × Heap)}
    (h : ofChange change heap = .error error left) :
    left = heap ∧ ∃ refused, change heap = .error refused := by
  unfold ofChange at h
  cases hchange : change heap with
  | ok reply =>
    rw [hchange] at h
    cases h
  | error refused =>
    rw [hchange] at h
    cases h
    exact ⟨rfl, refused, rfl⟩

/-- A cell that cannot be read was never handed out. -/
theorem of_read_eq_error {address : Nat} (h : read address heap = .error error left) :
    left = heap ∧ heap.size ≤ address := by
  obtain ⟨hleft, refused, hrefused⟩ := of_ofChange_eq_error h
  refine ⟨hleft, ?_⟩
  unfold Heap.read at hrefused
  cases hcell : heap.cells[address]? with
  | some word =>
    rw [hcell] at hrefused
    cases hrefused
  | none => exact Array.getElem?_eq_none_iff.mp hcell

/-- Nothing is stored to read a cell. -/
theorem stateAfter_read (address : Nat) (heap : Heap) :
    stateAfter (read address heap) = heap := by
  unfold read ofChange
  cases hread : heap.read address <;> simp [hread, stateAfter, Except.map]

theorem of_alloc_eq_ok {count address : Nat} (h : alloc count heap = .ok address left) :
    address = heap.size ∧ left = heap.grow count :=
  (Heap.alloc_eq_ok_grow_iff.mp (of_ofChange_eq_ok h)).2

theorem of_alloc_eq_error {count : Nat} (h : alloc count heap = .error error left) :
    left = heap ∧ error = .heap (.outOfMemory count heap.size heap.capacity) := by
  unfold alloc ofChange Heap.alloc at h
  by_cases hroom : heap.size + count ≤ heap.capacity
  · simp only [if_pos hroom] at h
    cases h
  · simp only [if_neg hroom] at h
    cases h
    exact ⟨rfl, rfl⟩

end HeapAction

/-! ## Steps and runs -/

namespace Step

variable {kept : Nat → Prop} {injector : Injector} {step : Step} {steps : List Step}

/-- No cell that is kept waits for a binder. -/
def Clear (kept : Nat → Prop) (scope : Scope) : Prop :=
  ∀ name, ∀ site ∈ scope.sites name, ¬ kept site

theorem clear_empty (kept : Nat → Prop) : Clear kept .empty := by
  intro name site hsite
  cases hsite

theorem clear_scopeAfter {scope : Scope} (hclear : Clear kept scope)
    (htarget : ∀ address ∈ step.target?, ¬ kept address) : Clear kept (step.scopeAfter scope) := by
  intro name site hsite
  rcases mem_sites_scopeAfter hsite with hold | rfl
  · exact hclear name site hold
  · exact htarget site rfl

theorem spares_perform (hclear : Clear kept injector.scope)
    (htarget : ∀ address ∈ step.target?, ¬ kept address) :
    Spares kept injector step.perform := by
  cases step with
  | check tag value =>
    unfold Spares
    rw [perform, stateAfter_checkLabel]
    exact .refl kept injector.heap
  | unlinked name address => exact .refl kept injector.heap
  | reserve cells => exact .bind (spares_alloc cells.length) fun _ _ _ => .pure ()
  | bind found =>
    refine .bind (spares_encode ..) ?_
    intro word between hencode
    obtain ⟨_, _, rfl⟩ := encode_eq_ok_iff.mp hencode
    exact spares_bindName (htarget found.slot rfl) (hclear found.name) word
  | use name address => exact spares_useName (htarget address rfl)
  | store address tag label payload =>
    refine .bind (spares_encode ..) ?_
    intro word between hencode
    obtain ⟨_, _, rfl⟩ := encode_eq_ok_iff.mp hencode
    exact spares_write (htarget address rfl) word

/-- Steps whose targets are not kept keep all cells that are, wherever the run ends. -/
theorem spares_performAll (hclear : Clear kept injector.scope)
    (htargets : ∀ address ∈ targets steps, ¬ kept address) :
    Spares kept injector (performAll steps) := by
  induction steps generalizing injector with
  | nil => exact .pure ()
  | cons step steps ih =>
    have htarget : ∀ address ∈ step.target?, ¬ kept address := fun address haddress =>
      htargets address (List.mem_filterMap.mpr ⟨step, List.mem_cons_self, haddress⟩)
    have hothers : ∀ address ∈ targets steps, ¬ kept address := by
      intro address haddress
      obtain ⟨other, hother, htarget⟩ := List.mem_filterMap.mp haddress
      exact htargets address
        (List.mem_filterMap.mpr ⟨other, List.mem_cons_of_mem _ hother, htarget⟩)
    refine .bind (spares_perform hclear htarget) ?_
    intro _ between hrun
    obtain ⟨_, rfl⟩ := perform_eq_ok_iff.mp hrun
    exact ih (clear_scopeAfter hclear htarget) hothers

theorem Run.sound {result : EStateM.Result InjectError Injector Unit}
    (h : Run steps injector result) (hsound : injector.Sound) : (stateAfter result).Sound := by
  induction h with
  | done injector | refused steps _ => exact hsound
  | next _ _ hsound' _ ih => exact ih hsound'

theorem Run.valid {result : EStateM.Result InjectError Injector Unit}
    (h : Run steps injector result) (hvalid : injector.heap.Valid) :
    (stateAfter result).heap.Valid := by
  induction h with
  | done injector | refused steps _ => exact hvalid
  | next _ hready _ _ ih => exact ih (valid_effect hready hvalid)

/-- A step that is no binder and fails has done nothing. -/
theorem perform_of_error {error : InjectError} {left : Injector}
    (hbind : ∀ found, step ≠ .bind found) (h : step.perform injector = .error error left) :
    left = injector := by
  cases step with
  | check tag value =>
    have hstate := stateAfter_checkLabel tag value injector
    rw [show checkLabel tag value injector = .error error left from h] at hstate
    exact hstate
  | unlinked name address =>
    cases h
    rfl
  | reserve cells =>
    cases hrun : alloc cells.length injector with
    | ok address between =>
      rw [perform, bind_of_ok hrun] at h
      cases h
    | error refused between =>
      rw [perform, bind_of_error hrun] at h
      cases h
      exact alloc_of_error hrun
  | bind found => exact absurd rfl (hbind found)
  | use name address =>
    by_cases hbound : ∃ word, injector.scope[name]? = some (.bound word)
    · obtain ⟨word, hword⟩ := hbound
      rw [perform, useName_of_bound hword] at h
      exact write_of_error h
    · rw [perform, useName_of_not_bound (not_exists.mp hbound)] at h
      cases h
  | store address tag label payload =>
    have hencode := stateAfter_encode tag label payload injector
    cases hrun : encode tag label payload injector with
    | ok word between =>
      rw [hrun] at hencode
      rw [perform, writeNode, bind_of_ok hrun] at h
      exact (write_of_error h).trans hencode
    | error refused between =>
      rw [hrun] at hencode
      rw [perform, writeNode, bind_of_error hrun] at h
      cases h
      exact hencode

end Step

/-! ## Units -/

namespace Tree

/-- The steps end with one about the cell, and it is no binder. -/
def EndsAt (host : Nat) (steps : List Step) : Prop :=
  ∃ front last, steps = front ++ [last] ∧ last.target? = some host ∧ ∀ found, last ≠ .bind found

theorem EndsAt.append {host : Nat} {others : List Step} (h : EndsAt host others)
    (steps : List Step) : EndsAt host (steps ++ others) := by
  obtain ⟨front, last, rfl, hlast⟩ := h
  exact ⟨steps ++ front, last, (List.append_assoc ..).symm, hlast⟩

theorem endsAt_store (host : Nat) (tag : Tag) (label payload : Nat) :
    EndsAt host [.store host tag label payload] :=
  ⟨[], _, rfl, rfl, nofun⟩

/-- The last step of a term is about its host. -/
theorem endsAt_steps (tree : Tree) (host base : Nat) : EndsAt host (tree.steps host base) := by
  cases tree with
  | era | u32 value => exact endsAt_store ..
  | var name => exact ⟨[], _, rfl, rfl, nofun⟩
  | ref name id? => cases id? <;> exact ⟨[], _, rfl, rfl, nofun⟩
  | lam name body | app function argument | sup label left right | op2 operator left right
  | ctr id fields | mat scrutinee arms =>
    simp only [steps, ← List.append_assoc, ← List.cons_append]
    exact (endsAt_store ..).append _
  | dup label first second value body =>
    -- The body is written into the same host.
    simp only [steps, ← List.cons_append]
    exact (endsAt_steps body ..).append _

/-- The steps before the last one are about fresh cells. -/
theorem le_of_mem_targets_front {tree : Tree} {host base address : Nat} {front : List Step}
    {last : Step} (hsteps : tree.steps host base = front ++ [last])
    (hlast : last.target? = some host) (h : address ∈ targets front) : base ≤ address := by
  have hperm := tree.targets_steps_perm host base
  have hhost : targets [last] = [host] := by simp [targets, hlast]
  rw [hsteps, targets_append, hhost] at hperm
  have hfront := ((List.perm_append_singleton host _).symm.trans hperm).cons_inv
  exact (List.mem_range'_1.mp (hfront.mem_iff.mp h)).1

variable {tree : Tree} {heap : Heap} {host : Nat}

/-- Writing a term in a fresh scope keeps every cell but the host. -/
theorem spares_inject (tree : Tree) (host : Nat) (heap : Heap) :
    Spares (fun address => address < heap.size ∧ address ≠ host) (.new heap)
      (tree.inject host) := by
  unfold Spares
  rw [inject_eq_performAll]
  refine spares_performAll (clear_empty _) ?_
  rintro address haddress ⟨hlt, hne⟩
  rcases List.mem_cons.mp ((tree.targets_steps_perm host heap.size).mem_iff.mp haddress) with
    heq | hfresh
  · exact hne heq
  · exact absurd hlt (Nat.not_lt_of_le (List.mem_range'_1.mp hfresh).1)

/-- Where writing a term fails, its host was not written. -/
theorem keeps_of_inject_error {error : InjectError} {left : Injector}
    (h : tree.inject host (.new heap) = .error error left) :
    heap.Keeps (· < heap.size) left.heap := by
  obtain ⟨front, last, hsteps, hlast, hbind⟩ := tree.endsAt_steps host heap.size
  have hfront : Spares (· < heap.size) (.new heap) (performAll front) := by
    refine spares_performAll (clear_empty _) ?_
    intro address haddress hlt
    exact absurd hlt (Nat.not_lt_of_le (le_of_mem_targets_front hsteps hlast haddress))
  rw [inject_eq_performAll, show (Injector.new heap).heap = heap from rfl, hsteps,
    performAll_append] at h
  unfold Spares at hfront
  cases hrun : performAll front (.new heap) with
  | ok done between =>
    rw [hrun] at hfront
    rw [bind_of_ok hrun] at h
    -- The step that fails is the last one, and a failing step has not stored anything.
    have hstep : performAll [last] between = last.perform between :=
      congrFun (bind_pure last.perform) between
    rw [perform_of_error hbind (hstep.symm.trans h)]
    exact hfront
  | error refused between =>
    rw [hrun] at hfront
    rw [bind_of_error hrun] at h
    cases h
    exact hfront

theorem stateAfter_injectAt (tree : Tree) (host : Nat) (heap : Heap) :
    stateAfter (tree.injectAt host heap) = (stateAfter (tree.inject host (.new heap))).heap := by
  rw [← HeapAction.stateAfter_withScope]
  unfold injectAt
  cases hrun : HeapAction.withScope (tree.inject host) heap with
  | ok done left =>
    rw [bind_of_ok hrun, HeapAction.stateAfter_read]
    rfl
  | error error left =>
    rw [bind_of_error hrun]
    rfl

/-- A unit leaves the heap valid, whether it succeeds or fails. -/
theorem valid_injectAt (tree : Tree) (hvalid : heap.Valid) (hhost : host < heap.size) :
    (stateAfter (tree.injectAt host heap)).Valid := by
  have hrun := run_of_guarded (tree.guarded_steps_of_lt hhost) (Injector.sound_new heap) hvalid
  rw [stateAfter_injectAt, inject_eq_performAll]
  exact hrun.valid hvalid

/-- Writing a unit keeps every cell but its host, whether it succeeds or fails. -/
theorem keeps_injectAt (tree : Tree) (host : Nat) (heap : Heap) :
    heap.Keeps (· ≠ host) (stateAfter (tree.injectAt host heap)) := by
  rw [stateAfter_injectAt]
  exact (tree.spares_inject host heap).mono fun address hlt hne => ⟨hlt, hne⟩

/-- In a cell in use, a unit fails for the reasons of its term or because of an unbound name. -/
theorem of_injectAt_eq_error {error : InjectError} {left : Heap} (hhost : host < heap.size)
    (h : tree.injectAt host heap = .error error left) :
    (∃ injector, tree.inject host (.new heap) = .error error injector) ∨
      ∃ name, error = .unboundVariable name := by
  unfold injectAt at h
  cases hscope : HeapAction.withScope (tree.inject host) heap with
  | error refused between =>
    rw [bind_of_error hscope] at h
    cases h
    rcases HeapAction.of_withScope_eq_error hscope with ⟨injector, hinject, -⟩ | hname
    · exact .inl ⟨injector, hinject⟩
    · exact .inr hname
  | ok done between =>
    -- The host is still there to be read.
    rw [bind_of_ok hscope] at h
    have hsize := (tree.spares_inject host heap).size_le
    rw [← HeapAction.stateAfter_withScope, hscope] at hsize
    exact absurd (HeapAction.of_read_eq_error h).2
      (Nat.not_le_of_lt (Nat.lt_of_lt_of_le hhost hsize))

/-- A unit that fails for another reason than an unbound name keeps its host as well. -/
theorem keeps_injectAt_of_error {error : InjectError} {left : Heap}
    (h : tree.injectAt host heap = .error error left)
    (herror : ∀ name, error ≠ .unboundVariable name) : heap.Keeps (fun _ => True) left := by
  have hkeeps : heap.Keeps (· ≠ host) left := by
    have hall := tree.keeps_injectAt host heap
    rwa [h] at hall
  unfold injectAt at h
  cases hrun : HeapAction.withScope (tree.inject host) heap with
  | ok done between =>
    rw [bind_of_ok hrun] at h
    obtain ⟨rfl, hle⟩ := HeapAction.of_read_eq_error h
    -- The host cannot even be read, so it is none of the cells in use.
    refine hkeeps.mono fun address hlt _ => ?_
    exact Nat.ne_of_lt (Nat.lt_of_lt_of_le hlt (Nat.le_trans hkeeps.size_le hle))
  | error refused between =>
    rw [bind_of_error hrun] at h
    cases h
    rcases HeapAction.of_withScope_eq_error hrun with ⟨injector, hinject, rfl⟩ | ⟨name, hname⟩
    · exact (keeps_of_inject_error hinject).mono fun _ hlt _ => hlt
    · exact absurd hname (herror name)

end Tree

/-! ## Definitions of a book -/

namespace Book

variable {heap : Heap}

/-- A definition is a unit of its own that is written into a fresh cell. -/
theorem inject_eq (book : Book) (id : UInt32) (heap : Heap) :
    book.inject id heap =
      match book.definitions[id.toNat]? with
      | none => .error (.unknownDefinition id) heap
      | some (_, tree) => (HeapAction.alloc 1 >>= tree.injectAt) heap := by
  unfold inject injectLogged
  cases book.definitions[id.toNat]? with
  | none => rfl
  | some definition =>
    obtain ⟨name, tree⟩ := definition
    simp only
    cases hrun : HeapAction.alloc 1 heap with
    | ok host between =>
      rw [bind_of_ok hrun]
      exact tree.value_injectAtLogged host between
    | error error left =>
      rw [bind_of_error hrun]
      rfl

/-- The definitions of the given ids, without the record of what was written. -/
def injectEach (book : Book) (ids : List UInt32) : HeapAction (List Word) := fun heap =>
  (book.injectEachLogged ids heap).value

theorem injectEach_cons (book : Book) (id : UInt32) (ids : List UInt32) :
    book.injectEach (id :: ids) = do
      let root ← book.inject id
      let roots ← book.injectEach ids
      return root :: roots := by
  funext heap
  change (book.injectEachLogged (id :: ids) heap).value = _
  rw [injectEachLogged, Logged.value_bind]
  cases hfirst : book.inject id heap with
  | error error left =>
    rw [bind_of_error hfirst, show (book.injectLogged id heap).value = _ from hfirst]
    rfl
  | ok root between =>
    rw [bind_of_ok hfirst, show (book.injectLogged id heap).value = _ from hfirst]
    cases hothers : book.injectEach ids between with
    | error error left =>
      rw [bind_of_error hothers, Logged.value_bind,
        show (book.injectEachLogged ids between).value = _ from hothers]
      rfl
    | ok roots left =>
      rw [bind_of_ok hothers, Logged.value_bind,
        show (book.injectEachLogged ids between).value = _ from hothers]
      rfl

/-- Writing a definition keeps every cell. -/
theorem keeps_inject (book : Book) (id : UInt32) (heap : Heap) :
    heap.Keeps (fun _ => True) (stateAfter (book.inject id heap)) := by
  rw [inject_eq]
  cases book.definitions[id.toNat]? with
  | none => exact .refl _ heap
  | some definition =>
    obtain ⟨name, tree⟩ := definition
    simp only
    cases hrun : HeapAction.alloc 1 heap with
    | ok host between =>
      obtain ⟨rfl, rfl⟩ := HeapAction.of_alloc_eq_ok hrun
      rw [bind_of_ok hrun]
      have hunit := tree.keeps_injectAt heap.size (heap.grow 1)
      have hcells : heap.Keeps (· ≠ heap.size)
          (stateAfter (tree.injectAt heap.size (heap.grow 1))) :=
        (Heap.Keeps.grow _ heap 1).trans hunit
      exact hcells.mono fun _ hlt _ => Nat.ne_of_lt hlt
    | error error left =>
      rw [bind_of_error hrun, stateAfter, (HeapAction.of_ofChange_eq_error hrun).1]
      exact .refl _ heap

/-- Writing definitions one after the other keeps every cell. -/
theorem keeps_injectEach (book : Book) (ids : List UInt32) (heap : Heap) :
    heap.Keeps (fun _ => True) (stateAfter (book.injectEach ids heap)) := by
  induction ids generalizing heap with
  | nil => exact .refl _ heap
  | cons id ids ih =>
    rw [injectEach_cons]
    have hfirst := HeapAction.Leaves.of_state (book.keeps_inject id heap)
    refine (hfirst.bind fun root between _ hbetween => ?_).state
    have hothers := HeapAction.Leaves.of_state (hbetween.trans (ih between))
    exact hothers.bind fun roots left _ hleft => .ok (root :: roots) hleft

end Book

/-! ## Nothing in a heap is lost -/

/-- No injection takes cells away, whether it succeeds or fails.  Writing a unit changes its host
and none of the other cells that were there, and not even the host if it fails for another reason
than an unbound name.  Writing the definitions of a book changes none of them. -/
theorem Heap.keeps_of_injection (heap : Heap) :
    (∀ (tree : Tree) (host : Nat),
      heap.Keeps (· ≠ host) (stateAfter (tree.injectAt host heap)) ∧
        ∀ error left, tree.injectAt host heap = .error error left →
          (∀ name, error ≠ .unboundVariable name) → heap.Keeps (fun _ => True) left) ∧
    ∀ book : Book,
      (∀ id, heap.Keeps (fun _ => True) (stateAfter (book.inject id heap))) ∧
        heap.Keeps (fun _ => True) (stateAfter (book.injectAll heap)) := by
  refine ⟨fun tree host => ⟨tree.keeps_injectAt host heap, ?_⟩, fun book => ⟨?_, ?_⟩⟩
  · intro error left h herror
    exact Tree.keeps_injectAt_of_error h herror
  · exact fun id => book.keeps_inject id heap
  · exact book.keeps_injectEach book.allIds heap

/-- The function of an application is written before the reference behind it turns out not to be
linked.  The host still has its word then, although the heap has grown. -/
theorem Heap.keeps_of_injection_unlinked :
    ∃ left : Heap,
      (Tree.app (.lam "x" (.var "x")) (.ref "g" none)).injectAt 0 ⟨#[.era], 9⟩ =
          .error (.unresolvedReference "g") left ∧
        (∀ name, InjectError.unresolvedReference "g" ≠ .unboundVariable name) ∧
        left.size = 5 ∧ Heap.Keeps (fun _ => True) ⟨#[.era], 9⟩ left := by
  have hrun : (Tree.app (.lam "x" (.var "x")) (.ref "g" none)).injectAt 0 ⟨#[.era], 9⟩ =
      .error (.unresolvedReference "g")
        ⟨#[.era, .pack .lam 0 3, .void, .sub, .pack .var 0 3], 9⟩ := rfl
  have herror : ∀ name, InjectError.unresolvedReference "g" ≠ .unboundVariable name := nofun
  exact ⟨_, hrun, herror, rfl, ((Heap.keeps_of_injection ⟨#[.era], 9⟩).1 _ 0).2 _ _ hrun herror⟩

end InteractionGraph
