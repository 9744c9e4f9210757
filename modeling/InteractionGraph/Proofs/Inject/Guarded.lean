import InteractionGraph.Proofs.Inject.Script
import InteractionGraph.Proofs.Tree.Requests

/-!
# Steps that fail only if a request is refused

Three kinds of steps make a request that can be refused.  The others can fail as well: they store in
a cell that has to have been handed out, words whose fields have to fit.  In the steps of a term
they never do, because the checks and the requests for cells come first.  `Guarded` is that property
of a list of steps, relative to the size of the heap that they begin on, and `Tree.guarded_steps`
shows it of the steps of a term.

A run of guarded steps thus ends with the error of the first request that is refused, and succeeds
if none is (`run_of_guarded`, `Run.outcome`).
-/

namespace InteractionGraph

open Injection

/-! ## The requests of steps -/

namespace Step

/-- What a step asks for. -/
def request? : Step → Option Request
  | check tag value => some (.label tag value)
  | unlinked name _ => some (.link name)
  | reserve cells => some (.cells cells.length)
  | bind found => some (.bind found.name)
  | use name _ => some (.use name)
  | store _ _ _ _ => none

/-- What some steps ask for. -/
def requests (steps : List Step) : List Request := steps.filterMap request?

@[simp]
theorem requests_nil : requests [] = [] := rfl

@[simp]
theorem requests_cons (step : Step) (steps : List Step) :
    requests (step :: steps) = step.request?.toList ++ requests steps := by
  cases step <;> rfl

@[simp]
theorem requests_append (first second : List Step) :
    requests (first ++ second) = requests first ++ requests second :=
  List.filterMap_append

end Step

namespace Tree

open Step

mutual

/-- The steps of a term ask for what its nodes ask for, in the same order. -/
theorem requests_steps (tree : Tree) (host base : Nat) :
    Step.requests (tree.steps host base) = tree.requests := by
  cases tree with
  | ref name id? => cases id? <;> simp [steps, request?, Tree.requests, nodes, ownRequests]
  | ctr id fields =>
    have hfields := requests_stepsOfFields fields base (base + fields.length)
    rw [Tree.requests, nodes, List.flatMap_cons, ← hfields]
    by_cases hempty : fields = [] <;> simp [steps, request?, ownRequests, hempty]
  | _ =>
    simp [steps, request?, requests_steps, requests_stepsOfArms, Tree.requests, nodes, ownRequests]

theorem requests_stepsOfFields (fields : List Tree) (address base : Nat) :
    Step.requests (stepsOfFields fields address base) =
      (nodesOfFields fields).flatMap ownRequests := by
  cases fields with
  | nil => rfl
  | cons field fields =>
    simp [stepsOfFields, requests_steps, requests_stepsOfFields, Tree.requests, nodesOfFields]

theorem requests_stepsOfArms (arms : List (UInt32 × Tree)) (address base : Nat) :
    Step.requests (stepsOfArms arms address base) = (nodesOfArms arms).flatMap ownRequests := by
  cases arms with
  | nil => rfl
  | cons arm arms =>
    obtain ⟨id, body⟩ := arm
    simp [stepsOfArms, request?, requests_steps, requests_stepsOfArms, Tree.requests, nodesOfArms]

end

end Tree

/-! ## Guarded steps -/

namespace Step

/-- On a heap of the given size, the steps store only in cells that were handed out, and words of
fields that fit, as long as every check among them passes and every request for cells leaves the
heap addressable. -/
def Guarded : Nat → List Step → Prop
  | _, [] => True
  | size, check _ value :: steps => Word.FitsLabel value → Guarded size steps
  | _, unlinked _ _ :: _ => True
  | size, reserve cells :: steps =>
    size + cells.length ≤ Word.payloadLimit → Guarded (size + cells.length) steps
  | size, bind found :: steps =>
    (found.slot < size ∧ found.label < Word.labelLimit ∧ found.node < Word.payloadLimit) ∧
      Guarded size steps
  | size, use _ address :: steps => address < size ∧ Guarded size steps
  | size, store address _ label payload :: steps =>
    (address < size ∧ label < Word.labelLimit ∧ payload < Word.payloadLimit) ∧ Guarded size steps

theorem guarded_reserve {size start length : Nat} {steps : List Step} :
    Guarded size (reserve ⟨start, length⟩ :: steps) ↔
      (size + length ≤ Word.payloadLimit → Guarded (size + length) steps) := Iff.rfl

theorem guarded_bind {size slot label node : Nat} {name : String} {tag : Tag}
    {steps : List Step} :
    Guarded size (bind ⟨name, slot, tag, label, node⟩ :: steps) ↔
      (slot < size ∧ label < Word.labelLimit ∧ node < Word.payloadLimit) ∧
        Guarded size steps := Iff.rfl

end Step

namespace Tree

open Step

mutual

/-- The steps of a term are guarded, and leave a heap that is larger by the cost of the term. -/
theorem guarded_steps (tree : Tree) {host base : Nat} {rest : List Step} (hhost : host < base)
    (hrest : Guarded (base + tree.cost) rest) : Guarded base (tree.steps host base ++ rest) := by
  have hzero : 0 < Word.labelLimit ∧ 0 < Word.payloadLimit := by decide
  cases tree with
  | era => exact ⟨⟨hhost, hzero⟩, hrest⟩
  | lam name body =>
    simp only [cost_lam, ← Nat.add_assoc] at hrest
    simp only [steps, List.cons_append, List.append_assoc, List.nil_append, guarded_reserve,
      guarded_bind]
    intro hroom
    have hnode : base < Word.payloadLimit := by omega
    refine ⟨⟨by omega, hzero.1, hnode⟩, guarded_steps body (by omega) ?_⟩
    exact ⟨⟨by omega, hzero.1, hnode⟩, hrest⟩
  | app first second =>
    simp only [cost_app, ← Nat.add_assoc] at hrest
    simp only [steps, List.cons_append, List.append_assoc, List.nil_append, guarded_reserve]
    intro hroom
    refine guarded_steps first (by omega) (guarded_steps second (by omega) ?_)
    exact ⟨⟨by omega, hzero.1, by omega⟩, hrest⟩
  | sup label first second =>
    simp only [cost_sup, ← Nat.add_assoc] at hrest
    simp only [steps, List.cons_append, List.append_assoc, List.nil_append]
    intro hfits
    rw [guarded_reserve]
    intro hroom
    refine guarded_steps first (by omega) (guarded_steps second (by omega) ?_)
    exact ⟨⟨by omega, hfits, by omega⟩, hrest⟩
  | dup label first second value body =>
    simp only [cost_dup, ← Nat.add_assoc] at hrest
    simp only [steps, List.cons_append, List.append_assoc]
    intro hfits
    rw [guarded_reserve, guarded_bind, guarded_bind]
    intro hroom
    have hnode : base < Word.payloadLimit := by omega
    refine ⟨⟨by omega, hfits, hnode⟩, ⟨by omega, hfits, hnode⟩, ?_⟩
    exact guarded_steps value (by omega) (guarded_steps body (by omega) hrest)
  | ref name id? =>
    cases id? with
    | none => exact trivial
    | some id => exact ⟨⟨hhost, hzero.1, id.toNat_lt⟩, hrest⟩
  | var name => exact ⟨hhost, hrest⟩
  | ctr id fields =>
    simp only [cost_ctr, ← Nat.add_assoc] at hrest
    simp only [steps, List.cons_append, List.append_assoc, List.nil_append]
    intro hfits
    by_cases hempty : fields = []
    · subst hempty
      exact ⟨⟨hhost, hfits, hzero.2⟩, hrest⟩
    · have hpos := List.length_pos_iff.mpr hempty
      simp only [if_neg hempty, List.cons_append, List.nil_append, guarded_reserve]
      intro hroom
      refine guarded_stepsOfFields fields (by omega) ?_
      exact ⟨⟨by omega, hfits, by omega⟩, hrest⟩
  | mat scrutinee arms =>
    simp only [cost_mat, ← Nat.add_assoc] at hrest
    simp only [steps, List.cons_append, List.append_assoc, List.nil_append, ← Nat.add_assoc]
    intro hfits
    rw [guarded_reserve, ← Nat.add_assoc]
    intro hroom
    refine guarded_steps scrutinee (by omega) (guarded_stepsOfArms arms (by omega) ?_)
    exact ⟨⟨by omega, hfits, by omega⟩, hrest⟩
  | op2 operator first second =>
    have hlimit : 16 < Word.labelLimit := by decide
    have hcode : operator.code < Word.labelLimit := Nat.lt_trans operator.code_lt hlimit
    simp only [cost_op2, ← Nat.add_assoc] at hrest
    simp only [steps, List.cons_append, List.append_assoc, List.nil_append, guarded_reserve]
    intro hroom
    refine guarded_steps first (by omega) (guarded_steps second (by omega) ?_)
    exact ⟨⟨by omega, hcode, by omega⟩, hrest⟩
  | u32 value => exact ⟨⟨hhost, hzero.1, value.toNat_lt⟩, hrest⟩

theorem guarded_stepsOfFields (fields : List Tree) {address base : Nat} {rest : List Step}
    (hspace : address + fields.length ≤ base)
    (hrest : Guarded (base + costOfFields fields) rest) :
    Guarded base (stepsOfFields fields address base ++ rest) := by
  cases fields with
  | nil => exact hrest
  | cons field fields =>
    simp only [costOfFields_cons, ← Nat.add_assoc] at hrest
    simp only [List.length_cons] at hspace
    simp only [stepsOfFields, List.append_assoc]
    exact guarded_steps field (by omega) (guarded_stepsOfFields fields (by omega) hrest)

theorem guarded_stepsOfArms (arms : List (UInt32 × Tree)) {address base : Nat} {rest : List Step}
    (hspace : address + 2 * arms.length ≤ base)
    (hrest : Guarded (base + costOfArms arms) rest) :
    Guarded base (stepsOfArms arms address base ++ rest) := by
  cases arms with
  | nil => exact hrest
  | cons arm arms =>
    obtain ⟨id, body⟩ := arm
    simp only [costOfArms_cons, ← Nat.add_assoc] at hrest
    simp only [List.length_cons] at hspace
    simp only [stepsOfArms, List.cons_append, List.append_assoc]
    have hlabel : 0 < Word.labelLimit := by decide
    refine ⟨⟨by omega, hlabel, id.toNat_lt⟩, ?_⟩
    exact guarded_steps body (by omega) (guarded_stepsOfArms arms (by omega) hrest)

end

/-- The steps of a term are guarded on a heap in which its host was handed out. -/
theorem guarded_steps_of_lt (tree : Tree) {host size : Nat} (hhost : host < size) :
    Guarded size (tree.steps host size) := by
  have happend : Guarded size (tree.steps host size ++ []) := tree.guarded_steps hhost trivial
  rwa [List.append_nil] at happend

end Tree

/-! ## A run of guarded steps -/

namespace Scope

theorem sites_addSite (scope : Scope) (name other : String) (address : Nat) :
    (scope.addSite name address).sites other =
      if name = other then scope.sites name ++ [address] else scope.sites other := by
  unfold addSite
  rw [sites, Std.TreeMap.getElem?_insert]
  by_cases hname : name = other
  · simp [hname]
  · simp [hname, sites]

theorem sites_bind (scope : Scope) (name other : String) (word : Word) :
    (scope.bind name word).sites other = if name = other then [] else scope.sites other := by
  unfold bind
  rw [sites, Std.TreeMap.getElem?_insert]
  by_cases hname : name = other
  · simp [hname]
  · simp [hname, sites]

end Scope

/-- Every cell that waits for a name was handed out. -/
def Injector.Sound (injector : Injector) : Prop :=
  ∀ name, ∀ site ∈ injector.scope.sites name, site < injector.heap.size

theorem Injector.sound_new (heap : Heap) : (Injector.new heap).Sound := by
  intro name site hsite
  simp [Injector.new, Scope.empty, Scope.sites] at hsite

namespace Step

variable {injector : Injector} {step : Step} {steps : List Step}

/-- The error of the request of a step, if it makes one that is refused. -/
def error? (capacity used : Nat) (step : Step) : Option InjectError :=
  step.request?.bind fun request => request.error? capacity used

theorem firstError?_requests_cons (capacity used : Nat) (step : Step) (steps : List Step) :
    firstError? capacity used (requests (step :: steps)) =
      (step.error? capacity used).or
        (firstError? capacity (used + step.cellCount) (requests steps)) := by
  cases step <;> rfl

/-- A step whose request is refused fails with the error of the request. -/
theorem perform_of_error? {error : InjectError}
    (h : step.error? injector.heap.capacity injector.heap.size = some error) :
    step.perform injector = .error error injector := by
  cases step with
  | check tag value =>
    obtain ⟨hfits, herror⟩ := Option.ite_none_left_eq_some.mp h
    rw [perform, checkLabel_of_not_fits hfits, Option.some.inj herror]
  | unlinked name address =>
    cases h
    rfl
  | reserve cells =>
    obtain ⟨hroom, herror⟩ := Option.ite_none_left_eq_some.mp h
    rw [perform, bind_of_error (alloc_of_lt (Nat.lt_of_not_le hroom)), Option.some.inj herror]
  | bind found | use name address | store address tag label payload => cases h

/-- The cell of a use is the only one that may begin to wait. -/
theorem mem_sites_scopeAfter {scope : Scope} {name : String} {site : Nat}
    (h : site ∈ (step.scopeAfter scope).sites name) :
    site ∈ scope.sites name ∨ step = .use name site := by
  cases step with
  | check tag value | unlinked other address | reserve cells | store address tag label payload =>
    exact .inl h
  | bind found =>
    rw [scopeAfter, Scope.sites_bind] at h
    split at h
    · cases h
    · exact .inl h
  | use other address =>
    rw [scopeAfter] at h
    split at h
    · exact .inl h
    · rw [Scope.sites_addSite] at h
      split at h
      · rename_i hname
        subst hname
        rcases List.mem_append.mp h with hold | hnew
        · exact .inl hold
        · rw [List.mem_singleton.mp hnew]
          exact .inr rfl
      · exact .inl h

theorem sound_effect (hsound : injector.Sound)
    (huse : ∀ name address, step = .use name address → address < injector.heap.size) :
    (step.effect injector).Sound := by
  intro name site hsite
  have hlt : site < injector.heap.size := by
    rcases mem_sites_scopeAfter hsite with hold | hnew
    · exact hsound name site hold
    · exact huse name site hnew
  rw [size_effect]
  exact Nat.lt_add_right _ hlt

/-- A guarded step whose request is met succeeds, and the steps behind it are guarded again. -/
theorem ready_of_guarded (hguarded : Guarded injector.heap.size (step :: steps))
    (hsound : injector.Sound) (hcapacity : injector.heap.capacity ≤ Word.payloadLimit)
    (hused : injector.heap.size ≤ injector.heap.capacity)
    (hmet : step.error? injector.heap.capacity injector.heap.size = none) :
    step.Ready injector ∧ Guarded (step.effect injector).heap.size steps := by
  rw [size_effect]
  cases step with
  | check tag value =>
    have hfits := ((Request.error?_eq_none_iff (.label tag value) hused).mp hmet).1
    exact ⟨⟨hfits, by simp [writes]⟩, hguarded hfits⟩
  | unlinked name address =>
    exact ((Request.error?_eq_none_iff (.link name) hused).mp hmet).1.elim
  | reserve cells =>
    have hroom := ((Request.error?_eq_none_iff (.cells cells.length) hused).mp hmet).2
    exact ⟨⟨hroom, by simp [writes]⟩, hguarded (Nat.le_trans hroom hcapacity)⟩
  | bind found =>
    obtain ⟨⟨hslot, hfits⟩, hrest⟩ := hguarded
    refine ⟨⟨hfits, ?_⟩, hrest⟩
    intro write hwrite
    rcases List.mem_cons.mp hwrite with rfl | hwaiting
    · exact hslot
    · obtain ⟨site, hsite, rfl⟩ := List.mem_map.mp hwaiting
      exact hsound found.name site hsite
  | use name address =>
    refine ⟨⟨trivial, ?_⟩, hguarded.2⟩
    rw [writes]
    split <;> simp [hguarded.1]
  | store address tag label payload =>
    obtain ⟨⟨haddress, hfits⟩, hrest⟩ := hguarded
    exact ⟨⟨hfits, by simpa [writes] using haddress⟩, hrest⟩

/-- A step that succeeds does not exceed the capacity. -/
theorem valid_effect (hready : step.Ready injector) (hvalid : injector.heap.Valid) :
    (step.effect injector).heap.Valid := by
  refine ⟨?_, ?_⟩
  · rw [size_effect, capacity_effect]
    cases step with
    | reserve cells => exact hready.1
    | check _ _ | unlinked _ _ | bind _ | use _ _ | store _ _ _ _ => exact hvalid.1
  · rw [capacity_effect]
    exact hvalid.2

/-- A run of steps that ends at the first request that is refused, or behind the last step.  The
steps before succeed, and each of them leaves the injector sound. -/
inductive Run : List Step → Injector → EStateM.Result InjectError Injector Unit → Prop where
  | done (injector : Injector) : Run [] injector (.ok () injector)
  | refused {injector : Injector} {step : Step} {error : InjectError} (steps : List Step) :
    step.error? injector.heap.capacity injector.heap.size = some error →
      Run (step :: steps) injector (.error error injector)
  | next {injector : Injector} {step : Step} {steps : List Step}
    {result : EStateM.Result InjectError Injector Unit} :
    step.error? injector.heap.capacity injector.heap.size = none → step.Ready injector →
      (step.effect injector).Sound → Run steps (step.effect injector) result →
      Run (step :: steps) injector result

/-- Guarded steps run in this way. -/
theorem run_of_guarded (hguarded : Guarded injector.heap.size steps) (hsound : injector.Sound)
    (hvalid : injector.heap.Valid) : Run steps injector (performAll steps injector) := by
  induction steps generalizing injector with
  | nil => exact .done injector
  | cons step steps ih =>
    cases herror : step.error? injector.heap.capacity injector.heap.size with
    | some refused =>
      have hrun : performAll (step :: steps) injector = .error refused injector :=
        bind_of_error (perform_of_error? herror)
      rw [hrun]
      exact .refused steps herror
    | none =>
      obtain ⟨hready, hrest⟩ := ready_of_guarded hguarded hsound hvalid.2 hvalid.1 herror
      have huse : ∀ name address, step = .use name address → address < injector.heap.size := by
        rintro name address rfl
        exact hguarded.1
      have hsound' := sound_effect hsound huse
      have hstep : step.perform injector = .ok () (step.effect injector) :=
        perform_eq_ok_iff.mpr ⟨hready, rfl⟩
      have hrun : performAll (step :: steps) injector = performAll steps (step.effect injector) :=
        bind_of_ok hstep
      rw [hrun]
      exact .next herror hready hsound' (ih hrest hsound' (valid_effect hready hvalid))

/-- Such a run fails with the error of the first request that is refused, and succeeds if none
is. -/
theorem Run.outcome {result : EStateM.Result InjectError Injector Unit}
    (h : Run steps injector result) :
    (firstError? injector.heap.capacity injector.heap.size (requests steps) = none →
      ReadyAll steps injector) ∧
      ∀ error,
        firstError? injector.heap.capacity injector.heap.size (requests steps) = some error →
          ∃ left, result = .error error left := by
  induction h with
  | done injector => exact ⟨fun _ => trivial, nofun⟩
  | @refused injector step refused steps herror =>
    rw [firstError?_requests_cons, herror, Option.some_or]
    refine ⟨nofun, ?_⟩
    rintro error ⟨⟩
    exact ⟨injector, rfl⟩
  | next herror hready _ _ ih =>
    rw [size_effect, capacity_effect] at ih
    rw [firstError?_requests_cons, herror, Option.none_or]
    exact ⟨fun h => ⟨hready, ih.1 h⟩, ih.2⟩

end Step

end InteractionGraph
