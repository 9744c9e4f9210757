import InteractionGraph.Proofs.Book.Linking
import InteractionGraph.Proofs.Inject.Frame

/-!
# References in a heap

A word that refers to a definition comes from one place only: the step that stores it for a
reference of the term (`Step.Run.refers`).  Uses of variables are copies of words too, but of those
of binders, and no binder is a reference.

Linking changes nothing but these steps.  Where the term had a reference without an id, the linked
term has one with the id of its name, and its word goes into the same cell (`Tree.steps_withIds`).
So the new references in a heap are known from the term before it was linked
(`Tree.refers_injectAt`), and no step is left that could fail because of a reference.
-/

namespace InteractionGraph

open Injection Step

/-! ## Words of references in a run -/

/-- The error is about room, a label or a binder, and not about a reference. -/
inductive InjectError.OfUnit : InjectError → Prop where
  | outOfMemory (requested used capacity : Nat) :
    OfUnit (.heap (.outOfMemory requested used capacity))
  | labelOverflow (tag : Tag) (value : Nat) : OfUnit (.labelOverflow tag value)
  | unboundVariable (name : String) : OfUnit (.unboundVariable name)

/-- No use of a name reads a reference. -/
def Scope.SparesReferences (scope : Scope) : Prop :=
  ∀ (name : String) (word : Word), scope[name]? = some (.bound word) → word.tag? ≠ some .ref

theorem Scope.sparesReferences_empty : empty.SparesReferences := by
  intro name word h
  simp [empty] at h

namespace Step

variable {injector : Injector} {step : Step} {steps : List Step}
  {result : EStateM.Result InjectError Injector Unit} {address : Nat} {word : Word}

theorem sparesReferences_scopeAfter {scope : Scope} (hscope : scope.SparesReferences)
    (hbind : ∀ found, step = .bind found → found.tag ≠ .ref) :
    (step.scopeAfter scope).SparesReferences := by
  intro name word h
  cases step with
  | check tag value | unlinked other address | reserve cells | store address tag label payload =>
    exact hscope name word h
  | bind found =>
    rw [scopeAfter, Scope.bind, Std.TreeMap.getElem?_insert] at h
    split at h
    · cases h
      rw [Binder.word, Word.tag?_pack]
      exact fun heq => hbind found rfl (Option.some.inj heq)
    · exact hscope name word h
  | use other address =>
    rw [scopeAfter] at h
    split at h
    · exact hscope name word h
    · rw [Scope.addSite, Std.TreeMap.getElem?_insert] at h
      split at h
      · cases h
      · exact hscope name word h

/-- A step stores the word of a reference only if that is what it is for. -/
theorem refers_writes {scope : Scope} (hscope : scope.SparesReferences)
    (hbind : ∀ found, step = .bind found → found.tag ≠ .ref)
    (hmem : (address, word) ∈ step.writes scope) (htag : word.tag? = some .ref) :
    ∃ label payload, step = .store address .ref label payload ∧
      word = .pack .ref label payload := by
  cases step with
  | check tag value | unlinked other address' | reserve cells => cases hmem
  | bind found =>
    rcases List.mem_cons.mp hmem with heq | hsite
    · cases heq
      rw [Word.sub, Word.tag?_pack] at htag
      cases htag
    · obtain ⟨site, _, heq⟩ := List.mem_map.mp hsite
      cases heq
      rw [Binder.word, Word.tag?_pack] at htag
      exact absurd (Option.some.inj htag) (hbind found rfl)
  | use name other =>
    rw [writes] at hmem
    split at hmem
    · rename_i bound hbound
      cases List.mem_singleton.mp hmem
      exact absurd htag (hscope name _ hbound)
    · cases hmem
  | store other tag label payload =>
    cases List.mem_singleton.mp hmem
    rw [Word.tag?_pack] at htag
    cases htag
    exact ⟨label, payload, rfl, rfl⟩

/-- A reference in a cell was there before, or it was stored there by a step. -/
theorem Run.refers (h : Run steps injector result)
    (hscope : injector.scope.SparesReferences)
    (hbinds : ∀ found, .bind found ∈ steps → found.tag ≠ .ref)
    (hcell : (stateAfter result).heap.cells[address]? = some word)
    (htag : word.tag? = some .ref) :
    injector.heap.cells[address]? = some word ∨
      ∃ label payload, .store address .ref label payload ∈ steps ∧
        word = .pack .ref label payload := by
  induction h with
  | done injector | refused steps _ => exact .inl hcell
  | @next injector step steps result _ _ _ _ ih =>
    have hbind : ∀ found, step = .bind found → found.tag ≠ .ref := fun found hstep =>
      hbinds found (hstep ▸ List.mem_cons_self)
    have hothers : ∀ found, .bind found ∈ steps → found.tag ≠ .ref := fun found hmem =>
      hbinds found (List.mem_cons_of_mem step hmem)
    rcases ih (sparesReferences_scopeAfter hscope hbind) hothers hcell with
      hbefore | ⟨label, payload, hmem, hword⟩
    · rcases Heap.getElem?_or_mem_of_setAll hbefore with hgrown | hwritten
      · rcases Heap.getElem?_or_void_of_grow hgrown with hold | rfl
        · exact .inl hold
        · rw [Word.tag?_void] at htag
          cases htag
      · obtain ⟨label, payload, rfl, hword⟩ := refers_writes hscope hbind hwritten htag
        exact .inr ⟨label, payload, List.mem_cons_self, hword⟩
    · exact .inr ⟨label, payload, List.mem_cons_of_mem step hmem, hword⟩

/-- A run fails because of a reference only if one was never linked. -/
theorem Run.ofUnit (h : Run steps injector result)
    (hlinked : ∀ name address, .unlinked name address ∉ steps) :
    ∀ error left, result = .error error left → error.OfUnit := by
  induction h with
  | done injector => exact nofun
  | @refused injector step refused steps herror =>
    rintro _ _ ⟨⟩
    obtain ⟨request, hrequest, hrefused⟩ := Option.bind_eq_some_iff.mp herror
    cases step with
    | check tag value =>
      cases hrequest
      obtain ⟨_, heq⟩ := Option.ite_none_left_eq_some.mp hrefused
      rw [← Option.some.inj heq]
      exact .labelOverflow tag value
    | unlinked name address => exact absurd List.mem_cons_self (hlinked name address)
    | reserve cells =>
      cases hrequest
      obtain ⟨_, heq⟩ := Option.ite_none_left_eq_some.mp hrefused
      rw [← Option.some.inj heq]
      exact .outOfMemory ..
    | bind found | use name address | store address tag label payload =>
      cases hrequest
      try cases hrefused
  | next _ _ _ _ ih =>
    exact ih fun name address hmem => hlinked name address (List.mem_cons_of_mem _ hmem)

end Step

/-! ## The steps of a linked term -/

namespace Tree

variable {id? : String → Option UInt32}

@[simp]
theorem length_fieldsWithIds (fields : List Tree) :
    (fieldsWithIds id? fields).length = fields.length := by
  induction fields with
  | nil => rfl
  | cons field fields ih => simp [fieldsWithIds, ih]

@[simp]
theorem length_armsWithIds (arms : List (UInt32 × Tree)) :
    (armsWithIds id? arms).length = arms.length := by
  induction arms with
  | nil => rfl
  | cons arm arms ih => simp [armsWithIds, ih]

@[simp]
theorem fieldsWithIds_eq_nil_iff {fields : List Tree} :
    fieldsWithIds id? fields = [] ↔ fields = [] := by
  rw [← List.length_eq_zero_iff, length_fieldsWithIds, List.length_eq_zero_iff]

mutual

/-- Linking does not change how many cells a term takes. -/
@[simp]
theorem cost_withIds (tree : Tree) : (tree.withIds id?).cost = tree.cost := by
  cases tree with
  | ctr id fields => simp [withIds, costOfFields_withIds fields]
  | mat scrutinee arms => simp [withIds, cost_withIds scrutinee, costOfArms_withIds arms]
  | dup label first second value body => simp [withIds, cost_withIds value, cost_withIds body]
  | app first second | sup label first second | op2 operator first second =>
    simp [withIds, cost_withIds first, cost_withIds second]
  | lam name body => simp [withIds, cost_withIds body]
  | era | ref name id? | var name | u32 value => simp [withIds]

@[simp]
theorem costOfFields_withIds (fields : List Tree) :
    costOfFields (fieldsWithIds id? fields) = costOfFields fields := by
  cases fields with
  | nil => rfl
  | cons field fields =>
    simp [fieldsWithIds, cost_withIds field, costOfFields_withIds fields]

@[simp]
theorem costOfArms_withIds (arms : List (UInt32 × Tree)) :
    costOfArms (armsWithIds id? arms) = costOfArms arms := by
  cases arms with
  | nil => rfl
  | cons arm arms =>
    obtain ⟨id, body⟩ := arm
    simp [armsWithIds, cost_withIds body, costOfArms_withIds arms]

end

/-! ## Terms that are not linked -/

/-- No reference of the term has an id. -/
def Unlinked (tree : Tree) : Prop := ∀ name id, .ref name (some id) ∉ tree.nodes

theorem unlinked_lam {name : String} {body : Tree} :
    (lam name body).Unlinked ↔ body.Unlinked := by simp [Unlinked, nodes]

theorem unlinked_app {function argument : Tree} :
    (app function argument).Unlinked ↔ function.Unlinked ∧ argument.Unlinked := by
  simp [Unlinked, nodes, forall_and]

theorem unlinked_sup {label : UInt32} {left right : Tree} :
    (sup label left right).Unlinked ↔ left.Unlinked ∧ right.Unlinked := by
  simp [Unlinked, nodes, forall_and]

theorem unlinked_dup {label : UInt32} {first second : String} {value body : Tree} :
    (dup label first second value body).Unlinked ↔ value.Unlinked ∧ body.Unlinked := by
  simp [Unlinked, nodes, forall_and]

theorem unlinked_op2 {operator : Operator} {left right : Tree} :
    (op2 operator left right).Unlinked ↔ left.Unlinked ∧ right.Unlinked := by
  simp [Unlinked, nodes, forall_and]

theorem unlinked_ctr {id : UInt32} {fields : List Tree} :
    (ctr id fields).Unlinked ↔ ∀ field ∈ fields, field.Unlinked := by
  simp only [Unlinked, nodes, List.mem_cons, reduceCtorEq, false_or, mem_nodesOfFields, not_exists,
    not_and]
  exact ⟨fun h field hfield name id => h name id field hfield,
    fun h name id field hfield => h field hfield name id⟩

theorem unlinked_mat {scrutinee : Tree} {arms : List (UInt32 × Tree)} :
    (mat scrutinee arms).Unlinked ↔ scrutinee.Unlinked ∧ ∀ arm ∈ arms, arm.2.Unlinked := by
  simp only [Unlinked, nodes, List.mem_cons, List.mem_append, reduceCtorEq, false_or, not_or,
    mem_nodesOfArms, not_exists, not_and, forall_and]
  exact and_congr_right fun _ => ⟨fun h arm harm name id => h name id arm harm,
    fun h name id arm harm => h arm harm name id⟩

end Tree

/-- The step of a reference without an id, where the reference has the id of its name. -/
def Step.linked (id? : String → Option UInt32) : Step → Step
  | unlinked name address =>
    match id? name with
    | some id => store address .ref 0 id.toNat
    | none => unlinked name address
  | step => step

/-- The step binds no name to a reference, and stores none. -/
def Step.Plain : Step → Prop
  | bind found => found.tag ≠ .ref
  | store _ tag _ _ => tag ≠ .ref
  | check _ _ | unlinked _ _ | reserve _ | use _ _ => True

namespace Tree

variable {id? : String → Option UInt32}

mutual

/-- A linked term is written by the same steps, but for those of its references. -/
theorem steps_withIds (tree : Tree) (h : tree.Unlinked) (host base : Nat) :
    (tree.withIds id?).steps host base = (tree.steps host base).map (Step.linked id?) := by
  cases tree with
  | era | var name | u32 value => rfl
  | ref name given? =>
    cases given? with
    | some id => exact absurd List.mem_cons_self (h name id)
    | none => cases hid : id? name <;> simp [withIds, steps, Step.linked, hid]
  | lam name body =>
    simp [withIds, steps, Step.linked, steps_withIds body (unlinked_lam.mp h)]
  | app first second =>
    obtain ⟨hfirst, hsecond⟩ := unlinked_app.mp h
    simp [withIds, steps, Step.linked, steps_withIds first hfirst, steps_withIds second hsecond]
  | sup label first second =>
    obtain ⟨hfirst, hsecond⟩ := unlinked_sup.mp h
    simp [withIds, steps, Step.linked, steps_withIds first hfirst, steps_withIds second hsecond]
  | op2 operator first second =>
    obtain ⟨hfirst, hsecond⟩ := unlinked_op2.mp h
    simp [withIds, steps, Step.linked, steps_withIds first hfirst, steps_withIds second hsecond]
  | dup label first second value body =>
    obtain ⟨hvalue, hbody⟩ := unlinked_dup.mp h
    simp [withIds, steps, Step.linked, steps_withIds value hvalue, steps_withIds body hbody]
  | ctr id fields =>
    by_cases hempty : fields = []
    · subst hempty
      rfl
    · simp [withIds, steps, Step.linked, hempty, stepsOfFields_withIds fields (unlinked_ctr.mp h)]
  | mat scrutinee arms =>
    obtain ⟨hscrutinee, harms⟩ := unlinked_mat.mp h
    simp [withIds, steps, Step.linked, steps_withIds scrutinee hscrutinee,
      stepsOfArms_withIds arms harms]

theorem stepsOfFields_withIds (fields : List Tree) (h : ∀ field ∈ fields, field.Unlinked)
    (address base : Nat) :
    stepsOfFields (fieldsWithIds id? fields) address base =
      (stepsOfFields fields address base).map (Step.linked id?) := by
  cases fields with
  | nil => rfl
  | cons field fields =>
    obtain ⟨hfield, hfields⟩ := List.forall_mem_cons.mp h
    simp [fieldsWithIds, stepsOfFields, steps_withIds field hfield,
      stepsOfFields_withIds fields hfields]

theorem stepsOfArms_withIds (arms : List (UInt32 × Tree)) (h : ∀ arm ∈ arms, arm.2.Unlinked)
    (address base : Nat) :
    stepsOfArms (armsWithIds id? arms) address base =
      (stepsOfArms arms address base).map (Step.linked id?) := by
  cases arms with
  | nil => rfl
  | cons arm arms =>
    obtain ⟨id, body⟩ := arm
    obtain ⟨hbody, harms⟩ := List.forall_mem_cons.mp h
    simp [armsWithIds, stepsOfArms, Step.linked, steps_withIds body hbody,
      stepsOfArms_withIds arms harms]

end

mutual

/-- As long as it is not linked, a term stores no reference. -/
theorem plain_steps (tree : Tree) (h : tree.Unlinked) (host base : Nat) :
    ∀ step ∈ tree.steps host base, step.Plain := by
  cases tree with
  | era | var name | u32 value => simp [steps, Step.Plain]
  | ref name given? =>
    cases given? with
    | some id => exact absurd List.mem_cons_self (h name id)
    | none => simp [steps, Step.Plain]
  | lam name body =>
    have hbody := plain_steps body (unlinked_lam.mp h) (base + 1) (base + 2)
    simpa [steps, Step.Plain, or_imp, forall_and] using hbody
  | app first second =>
    have hfirst := plain_steps first (unlinked_app.mp h).1 base (base + 2)
    have hsecond := plain_steps second (unlinked_app.mp h).2 (base + 1) (base + 2 + first.cost)
    simpa [steps, Step.Plain, or_imp, forall_and] using ⟨hfirst, hsecond⟩
  | sup label first second =>
    have hfirst := plain_steps first (unlinked_sup.mp h).1 base (base + 2)
    have hsecond := plain_steps second (unlinked_sup.mp h).2 (base + 1) (base + 2 + first.cost)
    simpa [steps, Step.Plain, or_imp, forall_and] using ⟨hfirst, hsecond⟩
  | op2 operator first second =>
    have hfirst := plain_steps first (unlinked_op2.mp h).1 base (base + 2)
    have hsecond := plain_steps second (unlinked_op2.mp h).2 (base + 1) (base + 2 + first.cost)
    simpa [steps, Step.Plain, or_imp, forall_and] using ⟨hfirst, hsecond⟩
  | dup label first second value body =>
    have hvalue := plain_steps value (unlinked_dup.mp h).1 (base + 2) (base + 3)
    have hbody := plain_steps body (unlinked_dup.mp h).2 host (base + 3 + value.cost)
    simpa [steps, Step.Plain, or_imp, forall_and] using ⟨hvalue, hbody⟩
  | ctr id fields =>
    have hfields := plain_stepsOfFields fields (unlinked_ctr.mp h) base (base + fields.length)
    by_cases hempty : fields = [] <;>
      simpa [steps, Step.Plain, or_imp, forall_and, hempty] using hfields
  | mat scrutinee arms =>
    have hscrutinee := plain_steps scrutinee (unlinked_mat.mp h).1 base
      (base + (1 + 2 * arms.length))
    have harms := plain_stepsOfArms arms (unlinked_mat.mp h).2 (base + 1)
      (base + (1 + 2 * arms.length) + scrutinee.cost)
    simpa [steps, Step.Plain, or_imp, forall_and] using ⟨hscrutinee, harms⟩

theorem plain_stepsOfFields (fields : List Tree) (h : ∀ field ∈ fields, field.Unlinked)
    (address base : Nat) : ∀ step ∈ stepsOfFields fields address base, step.Plain := by
  cases fields with
  | nil => exact nofun
  | cons field fields =>
    obtain ⟨hfield, hfields⟩ := List.forall_mem_cons.mp h
    exact List.forall_mem_append.mpr
      ⟨plain_steps field hfield _ _, plain_stepsOfFields fields hfields _ _⟩

theorem plain_stepsOfArms (arms : List (UInt32 × Tree)) (h : ∀ arm ∈ arms, arm.2.Unlinked)
    (address base : Nat) : ∀ step ∈ stepsOfArms arms address base, step.Plain := by
  cases arms with
  | nil => exact nofun
  | cons arm arms =>
    obtain ⟨id, body⟩ := arm
    obtain ⟨hbody, harms⟩ := List.forall_mem_cons.mp h
    refine List.forall_mem_cons.mpr ⟨by simp [Step.Plain], List.forall_mem_append.mpr ?_⟩
    exact ⟨plain_steps body hbody _ _, plain_stepsOfArms arms harms _ _⟩

end

variable {tree : Tree} {host base : Nat} {name : String} {address : Nat}

theorem link_mem_ownRequests_iff {node : Tree} :
    .link name ∈ node.ownRequests ↔ node = .ref name none := by
  cases node with
  | ref other id? => cases id? <;> simp [ownRequests, eq_comm]
  | ctr id fields => by_cases hempty : fields = [] <;> simp [ownRequests, hempty]
  | _ => simp [ownRequests]

/-- A step of a reference without an id is that of a reference of the term. -/
theorem mem_references_of_mem_steps (h : .unlinked name address ∈ tree.steps host base) :
    name ∈ tree.references := by
  have hrequest : .link name ∈ Step.requests (tree.steps host base) :=
    List.mem_filterMap.mpr ⟨_, h, rfl⟩
  rw [requests_steps, requests, List.mem_flatMap] at hrequest
  obtain ⟨node, hnode, hlink⟩ := hrequest
  rw [link_mem_ownRequests_iff] at hlink
  subst hlink
  exact List.mem_filterMap.mpr ⟨_, hnode, rfl⟩

/-- A reference that a linked term stores is one of the term before, with the id of its name. -/
theorem exists_unlinked_of_store_mem {label payload : Nat} (hunlinked : tree.Unlinked)
    (h : .store address .ref label payload ∈ (tree.withIds id?).steps host base) :
    ∃ name id, id? name = some id ∧ label = 0 ∧ payload = id.toNat ∧
      .unlinked name address ∈ tree.steps host base := by
  rw [steps_withIds tree hunlinked] at h
  obtain ⟨step, hstep, heq⟩ := List.mem_map.mp h
  have hplain := plain_steps tree hunlinked host base step hstep
  cases step with
  | unlinked name place =>
    rw [Step.linked] at heq
    split at heq
    · rename_i id hid
      cases heq
      exact ⟨name, id, hid, rfl, rfl, hstep⟩
    · cases heq
  | store place tag label payload =>
    cases heq
    exact absurd rfl hplain
  | check tag value | reserve cells | bind found | use name place => cases heq

/-- Where all of its references have an id, a linked term has no step left that fails for want of
one. -/
theorem unlinked_notMem_steps (hunlinked : tree.Unlinked)
    (hids : ∀ name ∈ tree.references, (id? name).isSome) :
    .unlinked name address ∉ (tree.withIds id?).steps host base := by
  intro h
  rw [steps_withIds tree hunlinked] at h
  obtain ⟨step, hstep, heq⟩ := List.mem_map.mp h
  cases step with
  | unlinked other place =>
    have hid := hids other (mem_references_of_mem_steps hstep)
    rw [Step.linked] at heq
    split at heq
    · cases heq
    · rename_i hnone
      rw [hnone] at hid
      cases hid
  | check tag value | reserve cells | bind found | use other place
  | store place tag label payload => cases heq

/-- A linked term binds no name to a reference. -/
theorem tag_ne_ref_of_bind_mem {found : Binder} (hunlinked : tree.Unlinked)
    (h : .bind found ∈ (tree.withIds id?).steps host base) : found.tag ≠ .ref := by
  rw [steps_withIds tree hunlinked] at h
  obtain ⟨step, hstep, heq⟩ := List.mem_map.mp h
  have hplain := plain_steps tree hunlinked host base step hstep
  cases step with
  | unlinked name place =>
    rw [Step.linked] at heq
    split at heq <;> cases heq
  | bind other =>
    cases heq
    exact hplain
  | check tag value | reserve cells | use name place | store place tag label payload => cases heq

end Tree

/-! ## Units -/

/-- The heap `after` is valid, and each reference in it was there in `before` or is allowed by
`refers`. -/
structure Heap.Gains (refers : Nat → Word → Prop) (before after : Heap) : Prop where
  valid : after.Valid
  cells : ∀ address word, after.cells[address]? = some word → word.tag? = some .ref →
    before.cells[address]? = some word ∨ refers address word

/-- Whether it succeeds or fails, the action brings no other references into the heap than `refers`
allows, and it does not fail because of a reference. -/
abbrev HeapAction.Refers {α : Type} (refers : Nat → Word → Prop) (heap : Heap)
    (result : EStateM.Result InjectError Heap α) : Prop :=
  Leaves (heap.Gains refers) InjectError.OfUnit result

variable {heap : Heap}

/-- A linked unit refers to what its references had the ids of, each in the cell of the
reference. -/
theorem Tree.refers_injectAt {tree : Tree} {host : Nat} {id? : String → Option UInt32}
    (hunlinked : tree.Unlinked) (hids : ∀ name ∈ tree.references, (id? name).isSome)
    (hvalid : heap.Valid) (hhost : host < heap.size) :
    HeapAction.Refers
      (fun address word => ∃ name id, id? name = some id ∧ word = .pack .ref 0 id.toNat ∧
        .unlinked name address ∈ tree.steps host heap.size)
      heap ((tree.withIds id?).injectAt host heap) := by
  have hrun : Run ((tree.withIds id?).steps host heap.size) (.new heap)
      ((tree.withIds id?).inject host (.new heap)) := by
    rw [inject_eq_performAll]
    exact run_of_guarded (guarded_steps_of_lt _ hhost) (Injector.sound_new heap) hvalid
  refine ⟨⟨?_, ?_⟩, ?_⟩
  · exact valid_injectAt _ hvalid hhost
  · intro address word hcell htag
    rw [stateAfter_injectAt] at hcell
    have hbinds : ∀ found, .bind found ∈ (tree.withIds id?).steps host heap.size →
        found.tag ≠ .ref := fun _ hmem => tag_ne_ref_of_bind_mem hunlinked hmem
    refine (hrun.refers Scope.sparesReferences_empty hbinds hcell htag).imp_right ?_
    rintro ⟨label, payload, hstore, rfl⟩
    obtain ⟨name, id, hid, rfl, rfl, hmem⟩ := exists_unlinked_of_store_mem hunlinked hstore
    exact ⟨name, id, hid, rfl, hmem⟩
  · intro error left h
    have hlinked : ∀ name address, .unlinked name address ∉
        (tree.withIds id?).steps host heap.size :=
      fun _ _ => unlinked_notMem_steps hunlinked hids
    rcases of_injectAt_eq_error hhost h with ⟨injector, hinject⟩ | ⟨name, rfl⟩
    · exact hrun.ofUnit hlinked error injector hinject
    · exact .unboundVariable name

end InteractionGraph
