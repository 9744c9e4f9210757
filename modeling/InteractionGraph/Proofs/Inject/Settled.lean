import InteractionGraph.Proofs.Inject.Known

/-!
# What the cells hold after some steps

`Settled` says what the cells of a heap hold once some steps are carried out on a fresh scope: a
stored word is there, the slot of a binder holds its placeholder, and a use that belongs to a
binder by the marks so far (`Mark.resolve`) holds the word of that binder.  Nothing is said of the
cell of a use that still waits.

A further step keeps all this (`Settled.effect`).  It stores in its own target, which is no target
of an earlier step, and a binder also in the cells that wait for its name.  These are cells of uses
that belonged to no binder before, and now belong to this one.
-/

namespace InteractionGraph

namespace Step

open Mark

variable {steps done : List Step} {step : Step} {injector : Injector} {address : Nat}

/-! ## Which step a cell belongs to -/

theorem mem_targets_iff : address ∈ targets steps ↔ ∃ step ∈ steps, step.target? = some address :=
  List.mem_filterMap

/-- Where a partial function takes no value twice, two elements with the same value are the same. -/
theorem eq_of_nodup_filterMap {α β : Type} {value? : α → Option β} {elements : List α}
    {first second : α} {value : β} (hnodup : (elements.filterMap value?).Nodup)
    (hfirst : first ∈ elements) (hsecond : second ∈ elements) (hvfirst : value? first = some value)
    (hvsecond : value? second = some value) : first = second := by
  induction elements with
  | nil => cases hfirst
  | cons element elements ih =>
    have hothers : (elements.filterMap value?).Nodup :=
      hnodup.sublist ((List.sublist_cons_self element elements).filterMap value?)
    have hapart : value? element = some value → ∀ other ∈ elements, value? other ≠ some value := by
      intro helement other hother hvother
      rw [List.filterMap_cons_some helement] at hnodup
      exact (List.nodup_cons.mp hnodup).1 (List.mem_filterMap.mpr ⟨other, hother, hvother⟩)
    rcases List.mem_cons.mp hfirst with rfl | hfirst'
    · rcases List.mem_cons.mp hsecond with rfl | hsecond'
      · rfl
      · exact absurd hvsecond (hapart hvfirst second hsecond')
    · rcases List.mem_cons.mp hsecond with rfl | hsecond'
      · exact absurd hvfirst (hapart hvsecond first hfirst')
      · exact ih hothers hfirst' hsecond'

/-- Two steps with the same target are the same step. -/
theorem eq_of_target?_eq {first second : Step} (hnodup : (targets steps).Nodup)
    (hfirst : first ∈ steps) (hsecond : second ∈ steps) (htfirst : first.target? = some address)
    (htsecond : second.target? = some address) : first = second :=
  eq_of_nodup_filterMap hnodup hfirst hsecond htfirst htsecond

/-! ## The cells that a step leaves alone -/

/-- A step stores in its own target and in the cells that wait for the name it binds. -/
theorem getElem?_effect_of_ne (hlt : address < injector.heap.size)
    (htarget : step.target? ≠ some address)
    (hwaits : ∀ found, step = .bind found → address ∉ injector.scope.sites found.name) :
    (step.effect injector).heap.cells[address]? = injector.heap.cells[address]? := by
  have hwrites : address ∉ (step.writes injector.scope).map Prod.fst := by
    cases step with
    | check tag value | unlinked name other | reserve cells => simp [writes]
    | bind found =>
      have hslot : address ≠ found.slot := fun heq => htarget (by rw [target?, heq])
      simpa [writes, hslot] using hwaits found rfl
    | use name other =>
      have hne : address ≠ other := fun heq => htarget (by rw [target?, heq])
      rw [writes]
      split <;> simp [hne]
    | store other tag label payload =>
      have hne : address ≠ other := fun heq => htarget (by rw [target?, heq])
      simp [writes, hne]
  rw [effect, Heap.getElem?_setAll_of_notMem hwrites, Heap.getElem?_grow_of_lt hlt]

/-- A cell in which a step stores only one word has that word. -/
theorem getElem?_effect_of_mem {word : Word} (hready : step.Ready injector)
    (hmem : (address, word) ∈ step.writes injector.scope)
    (hsame : ∀ write ∈ step.writes injector.scope, write.1 = address → write.2 = word) :
    (step.effect injector).heap.cells[address]? = some word := by
  have hlt : address < injector.heap.size := hready.2 _ hmem
  refine Heap.getElem?_setAll_of_mem ?_ (List.mem_map_of_mem hmem) hsame
  rw [Heap.size_grow]
  omega

/-! ## Settled cells -/

/-- The cells hold what some steps on a fresh scope have settled. -/
structure Settled (heap : Heap) (done : List Step) : Prop where
  fits : ∀ found, .bind found ∈ done →
    found.label < Word.labelLimit ∧ found.node < Word.payloadLimit
  stored : ∀ address tag label payload, .store address tag label payload ∈ done →
    heap.Holds address tag label payload
  slots : ∀ found, .bind found ∈ done → heap.Holds found.slot .sub 0 0
  used : ∀ before name address after found, done = before ++ .use name address :: after →
    resolve (marks before) (marks after) name = some found →
    heap.Holds address found.tag found.label found.node

/-- Before anything is done, nothing is settled. -/
theorem Settled.nil (heap : Heap) : Settled heap [] where
  fits := by simp
  stored := by simp
  slots := by simp
  used := by simp

/-- The target of an earlier step stays as it is, unless it is the cell of a use that waits for
the binder that comes up. -/
theorem getElem?_effect_of_mem_done {earlier : Step}
    (hscope : Summarizes injector.scope (marks done)) (hnodup : (targets (done ++ [step])).Nodup)
    (hearlier : earlier ∈ done) (htarget : earlier.target? = some address)
    (hlt : address < injector.heap.size)
    (hwaits : ∀ found, step = .bind found → lastBinder? (marks done) found.name = none →
      earlier ≠ .use found.name address) :
    (step.effect injector).heap.cells[address]? = injector.heap.cells[address]? := by
  rw [targets_append] at hnodup
  obtain ⟨hdone, _, hapart⟩ := List.nodup_append.mp hnodup
  have hmem : address ∈ targets done := mem_targets_iff.mpr ⟨earlier, hearlier, htarget⟩
  refine getElem?_effect_of_ne hlt ?_ ?_
  · intro hown
    exact hapart address hmem address (mem_targets_iff.mpr ⟨step, by simp, hown⟩) rfl
  · intro found hbind hsite
    cases hlast : lastBinder? (marks done) found.name with
    | some former =>
      rw [hscope.sites_eq_nil hlast] at hsite
      cases hsite
    | none =>
      rw [hscope.sites_eq hlast] at hsite
      have huse : .use found.name address ∈ done := mem_sites_iff.mp hsite
      exact hwaits found hbind hlast (eq_of_target?_eq hdone hearlier huse htarget rfl)

/-- A step that stores one word in its target settles it. -/
theorem holds_effect_of_mem {tag : Tag} {label payload : Nat} (hready : step.Ready injector)
    (hfits : label < Word.labelLimit ∧ payload < Word.payloadLimit)
    (hmem : (address, .pack tag label payload) ∈ step.writes injector.scope)
    (hsame : ∀ write ∈ step.writes injector.scope, write.1 = address →
      write.2 = .pack tag label payload) :
    (step.effect injector).heap.Holds address tag label payload :=
  .of_pack hfits (getElem?_effect_of_mem hready hmem hsame)

/-- A use in the marks of a longer run is either the last step or was there before. -/
theorem eq_concat_use {before after : List Step} {name : String}
    (h : done ++ [step] = before ++ .use name address :: after) :
    (after = [] ∧ before = done ∧ step = .use name address) ∨
      ∃ inner, after = inner ++ [step] ∧ done = before ++ .use name address :: inner := by
  rcases List.eq_nil_or_concat after with rfl | ⟨inner, last, rfl⟩
  · obtain ⟨hbefore, hlast⟩ := List.append_inj' h rfl
    cases hlast
    exact .inl ⟨rfl, hbefore.symm, rfl⟩
  · have hassoc : done ++ [step] = (before ++ .use name address :: inner) ++ [last] := by
      simpa using h
    obtain ⟨hdone, hlast⟩ := List.append_inj' hassoc rfl
    cases hlast
    exact .inr ⟨inner, by simp, hdone⟩

/-- The binder that a use belongs to is one of those around it. -/
theorem mem_binders_marks_of_resolve {before after : List Step} {name : String} {found : Binder}
    (h : resolve (marks before) (marks after) name = some found) :
    found ∈ binders (marks (before ++ .use name address :: after)) := by
  rw [marks_append, marks_use, binders_append, binders_use, List.mem_append]
  exact mem_of_resolve h

/-- Without a binder around a use, its name has none at all. -/
theorem lastBinder?_eq_none_of_resolve {before after : List Step} {name : String} (address : Nat)
    (h : resolve (marks before) (marks after) name = none) :
    lastBinder? (marks (before ++ .use name address :: after)) name = none := by
  obtain ⟨hbefore, hafter⟩ := resolve_eq_none_iff.mp h
  rw [lastBinder?_eq_none_iff, marks_append, marks_use, binders_append, binders_use]
  intro found hfound
  rcases List.mem_append.mp hfound with hmem | hmem
  · exact lastBinder?_eq_none_iff.mp hbefore found hmem
  · exact firstBinder?_eq_none_iff.mp hafter found hmem

/-- A single step whose mark is a binder of a name is that binder. -/
theorem bind_of_firstBinder? {name : String} {found : Binder}
    (h : firstBinder? (marks [step]) name = some found) :
    step = .bind found ∧ found.name = name := by
  have hmem := mem_binders_iff.mp (mem_of_firstBinder? h)
  exact ⟨(List.mem_singleton.mp hmem).symm, name_of_firstBinder? h⟩

namespace Settled

/-- Words that are stored, and slots, are never touched again. -/
theorem holds_effect {earlier : Step} {tag : Tag} {label payload : Nat}
    (hscope : Summarizes injector.scope (marks done)) (hnodup : (targets (done ++ [step])).Nodup)
    (hearlier : earlier ∈ done) (htarget : earlier.target? = some address)
    (hkind : ∀ name, earlier ≠ .use name address)
    (hholds : injector.heap.Holds address tag label payload) :
    (step.effect injector).heap.Holds address tag label payload :=
  hholds.of_cell_eq (getElem?_effect_of_mem_done hscope hnodup hearlier htarget hholds.lt_size
    fun found _ _ => hkind found.name)

/-- The slot of a binder does not wait for its name: the cells that do are targets of uses. -/
theorem slot_notMem_sites {found : Binder} (hscope : Summarizes injector.scope (marks done))
    (hnodup : (targets (done ++ [.bind found])).Nodup) :
    found.slot ∉ injector.scope.sites found.name := by
  intro hsite
  cases hlast : lastBinder? (marks done) found.name with
  | some former =>
    rw [hscope.sites_eq_nil hlast] at hsite
    cases hsite
  | none =>
    rw [hscope.sites_eq hlast] at hsite
    have hmem : found.slot ∈ targets done := mem_targets_iff.mpr ⟨_, mem_sites_iff.mp hsite, rfl⟩
    rw [targets_append] at hnodup
    exact (List.nodup_append.mp hnodup).2.2 _ hmem _ (by simp) rfl

/-- The slot of a binder holds its placeholder after the binder has come up. -/
theorem slot_effect {found : Binder} (hscope : Summarizes injector.scope (marks done))
    (hnodup : (targets (done ++ [.bind found])).Nodup)
    (hready : (Step.bind found).Ready injector) :
    ((Step.bind found).effect injector).heap.Holds found.slot .sub 0 0 := by
  have hfits : (0 : Nat) < Word.labelLimit ∧ (0 : Nat) < Word.payloadLimit := by decide
  refine holds_effect_of_mem hready hfits List.mem_cons_self ?_
  intro write hwrite hslot
  rcases List.mem_cons.mp hwrite with rfl | hother
  · rfl
  · obtain ⟨site, hsite, rfl⟩ := List.mem_map.mp hother
    subst hslot
    exact absurd hsite (slot_notMem_sites hscope hnodup)

/-- A cell that waits for a binder holds its word after the binder has come up. -/
theorem site_effect {found : Binder} (hscope : Summarizes injector.scope (marks done))
    (hnodup : (targets (done ++ [.bind found])).Nodup)
    (hready : (Step.bind found).Ready injector)
    (hlast : lastBinder? (marks done) found.name = none)
    (huse : .use found.name address ∈ done) :
    ((Step.bind found).effect injector).heap.Holds address found.tag found.label found.node := by
  have hsite : address ∈ injector.scope.sites found.name := by
    rw [hscope.sites_eq hlast]
    exact mem_sites_iff.mpr huse
  refine holds_effect_of_mem hready hready.1
    (List.mem_cons_of_mem _ (List.mem_map_of_mem (f := (·, found.word)) hsite)) ?_
  intro write hwrite haddress
  rcases List.mem_cons.mp hwrite with rfl | hother
  · subst haddress
    exact absurd hsite (slot_notMem_sites hscope hnodup)
  · obtain ⟨_, _, rfl⟩ := List.mem_map.mp hother
    rfl

/-- The cell of a use of a bound name holds the word of its last binder. -/
theorem use_effect {name : String} {found : Binder}
    (hsettled : Settled injector.heap done) (hscope : Summarizes injector.scope (marks done))
    (hready : (Step.use name address).Ready injector)
    (hlast : lastBinder? (marks done) name = some found) :
    ((Step.use name address).effect injector).heap.Holds address found.tag found.label
      found.node := by
  have hbound : injector.scope[name]? = some (.bound found.word) :=
    hscope.bound_iff.mpr ⟨found, hlast, rfl⟩
  have hfits := hsettled.fits found (mem_binders_iff.mp (mem_of_lastBinder? hlast))
  have hwrites : (Step.use name address).writes injector.scope = [(address, found.word)] := by
    rw [writes, hbound]
  refine holds_effect_of_mem hready hfits ?_ ?_
  · rw [hwrites]
    exact List.mem_singleton_self _
  · intro write hwrite _
    rw [hwrites, List.mem_singleton] at hwrite
    rw [hwrite]
    rfl

/-- A step keeps what is settled, and settles what it can. -/
theorem effect (hsettled : Settled injector.heap done)
    (hscope : Summarizes injector.scope (marks done)) (hnodup : (targets (done ++ [step])).Nodup)
    (hready : step.Ready injector) :
    Settled (step.effect injector).heap (done ++ [step]) where
  fits := by
    intro found hbind
    rcases List.mem_append.mp hbind with hdone | hstep
    · exact hsettled.fits found hdone
    · obtain rfl := List.mem_singleton.mp hstep
      exact hready.1
  stored := by
    intro address tag label payload hstore
    rcases List.mem_append.mp hstore with hdone | hstep
    · exact holds_effect hscope hnodup hdone rfl (by simp)
        (hsettled.stored address tag label payload hdone)
    · obtain rfl := List.mem_singleton.mp hstep
      exact holds_effect_of_mem hready hready.1 (List.mem_singleton_self _) (by simp [writes])
  slots := by
    intro found hbind
    rcases List.mem_append.mp hbind with hdone | hstep
    · exact holds_effect hscope hnodup hdone rfl (by simp) (hsettled.slots found hdone)
    · obtain rfl := List.mem_singleton.mp hstep
      exact slot_effect hscope hnodup hready
  used := by
    intro before name address after found hsplit hresolve
    rcases eq_concat_use hsplit with ⟨rfl, rfl, rfl⟩ | ⟨inner, rfl, rfl⟩
    · have hlast : lastBinder? (marks before) name = some found := by
        simpa [resolve, firstBinder?] using hresolve
      exact use_effect hsettled hscope hready hlast
    · have huse : Step.use name address ∈ before ++ .use name address :: inner := by simp
      rw [marks_append, resolve_append] at hresolve
      cases hformer : resolve (marks before) (marks inner) name with
      | some former =>
        -- The use belonged to a binder already, so it does not wait for this one.
        rw [hformer] at hresolve
        obtain rfl : former = found := Option.some.inj hresolve
        have hholds := hsettled.used before name address inner former rfl hformer
        refine hholds.of_cell_eq
          (getElem?_effect_of_mem_done hscope hnodup huse rfl hholds.lt_size ?_)
        rintro binder rfl hlast heq
        obtain ⟨rfl, -⟩ := Step.use.inj heq
        exact lastBinder?_eq_none_iff.mp hlast former
          (mem_binders_marks_of_resolve hformer) (name_of_resolve hformer)
      | none =>
        -- The use waited, and the step is the binder that it waited for.
        rw [hformer] at hresolve
        obtain ⟨rfl, rfl⟩ := bind_of_firstBinder? hresolve
        have hlast := lastBinder?_eq_none_of_resolve address hformer
        exact site_effect hscope hnodup hready hlast huse

end Settled

/-- Steps that succeed on a fresh scope settle all that they can, if no two of them have the same
target. -/
theorem settled_effectAll {heap : Heap} (hnodup : (targets steps).Nodup)
    (hready : ReadyAll steps (.new heap)) :
    Settled (effectAll steps (.new heap)).heap steps := by
  induction steps using List.reverseRecOn with
  | nil => exact .nil heap
  | append_singleton steps step ih =>
    obtain ⟨hsteps, hstep, -⟩ := readyAll_append.mp hready
    have hprefix : (targets steps).Nodup := by
      rw [targets_append] at hnodup
      exact (List.nodup_append.mp hnodup).1
    rw [effectAll_append]
    exact (ih hprefix hsteps).effect (summarizes_effectAll steps heap) hnodup hstep

end Step

end InteractionGraph
