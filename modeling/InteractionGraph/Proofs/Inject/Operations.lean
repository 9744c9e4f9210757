import InteractionGraph.Inject.Basic
import InteractionGraph.Proofs.Heap.Cells

/-!
# When the operations of an injector succeed

For each operation of an injector, the exact condition under which it succeeds and the injector
that it leaves then.  Nothing about writing terms unfolds an operation again.
-/

namespace InteractionGraph

/-- A step after another one succeeds if both do. -/
theorem bind_eq_ok_iff {ε σ α β : Type} {first : EStateM ε σ α} {next : α → EStateM ε σ β}
    {state state' : σ} {value : β} :
    (first >>= next) state = .ok value state' ↔
      ∃ middle between, first state = .ok middle between ∧
        next middle between = .ok value state' := by
  change EStateM.bind first next state = _ ↔ _
  unfold EStateM.bind
  cases h : first state with
  | ok middle between =>
    constructor
    · intro hnext
      exact ⟨middle, between, rfl, hnext⟩
    · rintro ⟨_, _, hfirst, hnext⟩
      cases hfirst
      exact hnext
  | error error between => simp

section

variable {ε σ α β : Type} {first : EStateM ε σ α} {next : α → EStateM ε σ β} {state between : σ}

theorem bind_of_ok {value : α} (h : first state = .ok value between) :
    (first >>= next) state = next value between := by
  change EStateM.bind first next state = _
  rw [EStateM.bind, h]

/-- What comes behind a step that fails does not matter. -/
theorem bind_of_error {error : ε} (h : first state = .error error between) :
    (first >>= next) state = .error error between := by
  change EStateM.bind first next state = _
  rw [EStateM.bind, h]

end

namespace Injection

variable {α : Type} {injector injector' : Injector} {done : Unit}

theorem pure_eq_ok_iff {value other : α} :
    (pure value : Injection α) injector = .ok other injector' ↔
      other = value ∧ injector' = injector := by
  simp [pure, EStateM.pure, eq_comm]

theorem throw_ne_ok {error : InjectError} {value : α} :
    (throw error : Injection α) injector ≠ .ok value injector' := by
  intro h
  cases h

theorem alloc_eq_ok_iff {count address : Nat} :
    alloc count injector = .ok address injector' ↔
      injector.heap.size + count ≤ injector.heap.capacity ∧ address = injector.heap.size ∧
        injector' = { injector with heap := injector.heap.grow count } := by
  unfold alloc
  cases h : injector.heap.alloc count with
  | ok reply =>
    obtain ⟨address', heap⟩ := reply
    obtain ⟨hroom, rfl, rfl⟩ := Heap.alloc_eq_ok_grow_iff.mp h
    simp [hroom, eq_comm]
  | error error =>
    have hroom : ¬ injector.heap.size + count ≤ injector.heap.capacity := by
      intro hroom
      rw [Heap.alloc_eq_ok_grow_iff.mpr ⟨hroom, rfl, rfl⟩] at h
      cases h
    simp [hroom]

/-- A request that does not fit is refused with what it was for. -/
theorem alloc_of_lt {count : Nat} (h : injector.heap.capacity < injector.heap.size + count) :
    alloc count injector =
      .error (.heap (.outOfMemory count injector.heap.size injector.heap.capacity)) injector := by
  unfold alloc Heap.alloc
  rw [if_neg (Nat.not_le_of_lt h)]

theorem write_eq_ok_iff {address : Nat} {word : Word} :
    write address word injector = .ok done injector' ↔
      address < injector.heap.size ∧
        injector' = { injector with heap := injector.heap.set address word } := by
  unfold write
  cases h : injector.heap.write address word with
  | ok heap =>
    obtain ⟨hlt, rfl⟩ := Heap.write_eq_ok_set_iff.mp h
    simp [hlt, eq_comm]
  | error error =>
    have hlt : ¬ address < injector.heap.size := by
      intro hlt
      rw [Heap.write_eq_ok_set_iff.mpr ⟨hlt, rfl⟩] at h
      cases h
    simp [hlt]

theorem encode_eq_ok_iff {tag : Tag} {label payload : Nat} {word : Word} :
    encode tag label payload injector = .ok word injector' ↔
      (label < Word.labelLimit ∧ payload < Word.payloadLimit) ∧
        word = .pack tag label payload ∧ injector' = injector := by
  unfold encode Word.encode?
  by_cases hfits : label < Word.labelLimit ∧ payload < Word.payloadLimit
  · simp [hfits, pure_eq_ok_iff]
  · simp [hfits, throw_ne_ok]

theorem writeNode_eq_ok_iff {host : Nat} {tag : Tag} {label payload : Nat} :
    writeNode host tag label payload injector = .ok done injector' ↔
      (label < Word.labelLimit ∧ payload < Word.payloadLimit) ∧ host < injector.heap.size ∧
        injector' =
          { injector with heap := injector.heap.set host (.pack tag label payload) } := by
  unfold writeNode
  simp only [bind_eq_ok_iff, encode_eq_ok_iff, write_eq_ok_iff]
  constructor
  · rintro ⟨_, _, ⟨hfits, rfl, rfl⟩, hlt, rfl⟩
    exact ⟨hfits, hlt, rfl⟩
  · rintro ⟨hfits, hlt, rfl⟩
    exact ⟨_, _, ⟨hfits, rfl, rfl⟩, hlt, rfl⟩

theorem checkLabel_eq_ok_iff {tag : Tag} {value : Nat} :
    checkLabel tag value injector = .ok done injector' ↔
      Word.FitsLabel value ∧ injector' = injector := by
  unfold checkLabel
  by_cases hfits : Word.FitsLabel value
  · simp [hfits, pure_eq_ok_iff]
  · simp [hfits, throw_ne_ok]

theorem checkLabel_of_not_fits {tag : Tag} {value : Nat} (h : ¬ Word.FitsLabel value) :
    checkLabel tag value injector = .error (.labelOverflow tag value) injector := by
  unfold checkLabel
  rw [if_neg h]
  rfl

theorem writeAll_eq_ok_iff {word : Word} {addresses : List Nat} :
    writeAll word addresses injector = .ok done injector' ↔
      (∀ address ∈ addresses, address < injector.heap.size) ∧
        injector' =
          { injector with heap := injector.heap.setAll (addresses.map (·, word)) } := by
  induction addresses generalizing injector with
  | nil => simp [writeAll, pure_eq_ok_iff]
  | cons address addresses ih =>
    simp only [writeAll, bind_eq_ok_iff, write_eq_ok_iff, ih]
    constructor
    · rintro ⟨_, _, ⟨hlt, rfl⟩, hrest, rfl⟩
      simp_all
    · rintro ⟨hall, rfl⟩
      refine ⟨(), _, ⟨hall address List.mem_cons_self, rfl⟩, ?_, rfl⟩
      intro other hother
      rw [Heap.size_set]
      exact hall other (List.mem_cons_of_mem _ hother)

theorem bindName_eq_ok_iff {name : String} {slot : Nat} {word : Word} :
    bindName name slot word injector = .ok done injector' ↔
      (slot < injector.heap.size ∧
        ∀ address ∈ injector.scope.sites name, address < injector.heap.size) ∧
        injector' =
          ⟨injector.heap.setAll
              ((slot, .sub) :: (injector.scope.sites name).map (·, word)),
            injector.scope.bind name word⟩ := by
  unfold bindName
  simp only [bind_eq_ok_iff, write_eq_ok_iff, writeAll_eq_ok_iff]
  constructor
  · rintro ⟨_, _, ⟨hslot, rfl⟩, _, _, hscope, hsites, rfl⟩
    cases hscope
    simp_all
  · rintro ⟨⟨hslot, hsites⟩, rfl⟩
    refine ⟨(), _, ⟨hslot, rfl⟩, _, _, rfl, ?_, rfl⟩
    intro address haddress
    rw [Heap.size_set]
    exact hsites address haddress

/-- A use of a bound name is written. -/
theorem useName_of_bound {name : String} {host : Nat} {word : Word}
    (h : injector.scope[name]? = some (.bound word)) :
    useName name host injector = write host word injector := by
  have hget : (get : Injection Injector) injector = .ok injector injector := rfl
  unfold useName
  rw [bind_of_ok hget]
  simp only [h]

/-- A use of any other name waits. -/
theorem useName_of_not_bound {name : String} {host : Nat}
    (h : ∀ word, injector.scope[name]? ≠ some (.bound word)) :
    useName name host injector =
      .ok () { injector with scope := injector.scope.addSite name host } := by
  have hget : (get : Injection Injector) injector = .ok injector injector := rfl
  unfold useName
  rw [bind_of_ok hget]
  cases hknown : injector.scope[name]? with
  | none => rfl
  | some known =>
    cases known with
    | pending sites => rfl
    | bound word => exact absurd hknown (h word)

end Injection

end InteractionGraph
