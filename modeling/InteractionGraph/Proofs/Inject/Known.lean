import InteractionGraph.Proofs.Inject.Targets
import Mathlib.Data.List.Induction

/-!
# What an injector knows of a name

The scope of an injector is a summary of the steps that it has carried out, and of nothing else:
not of the heap, nor of how the steps came about.  `known` reads it off the marks of these steps: a
name is bound to the last of its binders, it waits in the cells of all its uses if it has none, and
nothing is known of a name that did not come up (`getElem?_scope_effectAll`).
-/

namespace InteractionGraph

namespace Mark

/-- The cell of a use of the name. -/
def site? (name : String) : Mark → Option Nat
  | use other address => if other = name then some address else none
  | block _ | binder _ => none

/-- The cells of the uses of a name, in their order. -/
def sites (marks : List Mark) (name : String) : List Nat := marks.filterMap (site? name)

/-- What is known of a name after some marks. -/
def known (marks : List Mark) (name : String) : Option Binding :=
  match lastBinder? marks name with
  | some found => some (.bound found.word)
  | none =>
    match sites marks name with
    | [] => none
    | site :: sites => some (.pending (site :: sites))

/-! ## The last and the first binder -/

variable {marks before after : List Mark} {name : String} {found : Binder}

theorem lastBinder?_eq_none_iff :
    lastBinder? marks name = none ↔ ∀ found ∈ binders marks, found.name ≠ name := by
  simp [lastBinder?]

theorem firstBinder?_eq_none_iff :
    firstBinder? marks name = none ↔ ∀ found ∈ binders marks, found.name ≠ name := by
  simp [firstBinder?]

theorem firstBinder?_append (before after : List Mark) (name : String) :
    firstBinder? (before ++ after) name =
      (firstBinder? before name).or (firstBinder? after name) := by
  simp [firstBinder?]

theorem name_of_lastBinder? (h : lastBinder? marks name = some found) : found.name = name := by
  simpa using List.find?_some h

theorem mem_of_lastBinder? (h : lastBinder? marks name = some found) : found ∈ binders marks :=
  List.mem_reverse.mp (List.mem_of_find?_eq_some h)

theorem name_of_firstBinder? (h : firstBinder? marks name = some found) : found.name = name := by
  simpa using List.find?_some h

theorem mem_of_firstBinder? (h : firstBinder? marks name = some found) : found ∈ binders marks :=
  List.mem_of_find?_eq_some h

/-- A use belongs to a binder of its name. -/
theorem name_of_resolve (h : resolve before after name = some found) : found.name = name := by
  rcases Option.or_eq_some_iff.mp h with hlast | ⟨_, hfirst⟩
  · exact name_of_lastBinder? hlast
  · exact name_of_firstBinder? hfirst

/-- A use belongs to one of the binders around it. -/
theorem mem_of_resolve (h : resolve before after name = some found) :
    found ∈ binders before ∨ found ∈ binders after := by
  rcases Option.or_eq_some_iff.mp h with hlast | ⟨_, hfirst⟩
  · exact .inl (mem_of_lastBinder? hlast)
  · exact .inr (mem_of_firstBinder? hfirst)

/-- Marks further on matter only to a use that belongs to no binder yet. -/
theorem resolve_append (before after more : List Mark) (name : String) :
    resolve before (after ++ more) name =
      (resolve before after name).or (firstBinder? more name) := by
  rw [resolve, resolve, firstBinder?_append, Option.or_assoc]

/-- A use belongs to no binder only if no binder of its name comes up on either side. -/
theorem resolve_eq_none_iff :
    resolve before after name = none ↔
      lastBinder? before name = none ∧ firstBinder? after name = none :=
  Option.or_eq_none_iff

/-! ## What one more mark adds -/

@[simp]
theorem lastBinder?_nil (name : String) : lastBinder? [] name = none := rfl

@[simp]
theorem sites_nil (name : String) : sites [] name = [] := rfl

@[simp]
theorem known_nil (name : String) : known [] name = none := rfl

theorem known_of_lastBinder? (h : lastBinder? marks name = some found) :
    known marks name = some (.bound found.word) := by
  rw [known, h]

theorem known_of_sites_eq_nil (hlast : lastBinder? marks name = none)
    (hsites : sites marks name = []) : known marks name = none := by
  rw [known, hlast, hsites]

theorem known_of_sites_ne_nil (hlast : lastBinder? marks name = none)
    (hsites : sites marks name ≠ []) : known marks name = some (.pending (sites marks name)) := by
  obtain ⟨site, others, heq⟩ := List.exists_cons_of_ne_nil hsites
  rw [known, hlast, heq]

theorem known_concat_block (marks : List Mark) (cells : Block) (name : String) :
    known (marks ++ [.block cells]) name = known marks name := by
  have hlast : lastBinder? (marks ++ [.block cells]) name = lastBinder? marks name := by
    simp [lastBinder?]
  have hsites : sites (marks ++ [.block cells]) name = sites marks name := by
    simp [sites, site?]
  rw [known, known, hlast, hsites]

/-- A binder takes a name over, whatever was known of it. -/
theorem known_concat_binder (marks : List Mark) (found : Binder) (name : String) :
    known (marks ++ [.binder found]) name =
      if found.name = name then some (.bound found.word) else known marks name := by
  have hsites : sites (marks ++ [.binder found]) name = sites marks name := by
    simp [sites, site?]
  split
  · rename_i hname
    have hlast : lastBinder? (marks ++ [.binder found]) name = some found := by
      simp [lastBinder?, hname]
    exact known_of_lastBinder? hlast
  · rename_i hname
    have hlast : lastBinder? (marks ++ [.binder found]) name = lastBinder? marks name := by
      simp [lastBinder?, hname]
    rw [known, known, hlast, hsites]

theorem lastBinder?_concat_use (marks : List Mark) (other name : String) (address : Nat) :
    lastBinder? (marks ++ [.use other address]) name = lastBinder? marks name := by
  simp [lastBinder?]

/-- A use of a bound name adds nothing. -/
theorem known_concat_use_of_bound {other : String} {address : Nat}
    (h : lastBinder? marks other = some found) (name : String) :
    known (marks ++ [.use other address]) name = known marks name := by
  by_cases hname : other = name
  · subst hname
    rw [known_of_lastBinder? h, known_of_lastBinder? ((lastBinder?_concat_use ..).trans h)]
  · have hsites : sites (marks ++ [.use other address]) name = sites marks name := by
      simp [sites, site?, hname]
    rw [known, known, lastBinder?_concat_use, hsites]

/-- A use of any other name adds its cell to those that wait. -/
theorem known_concat_use_of_not_bound {other : String} {address : Nat}
    (h : lastBinder? marks other = none) (name : String) :
    known (marks ++ [.use other address]) name =
      if other = name then some (.pending (sites marks name ++ [address]))
      else known marks name := by
  split
  · rename_i hname
    subst hname
    have hsites : sites (marks ++ [.use other address]) other = sites marks other ++ [address] := by
      simp [sites, site?]
    rw [known_of_sites_ne_nil ((lastBinder?_concat_use ..).trans h) (by simp [hsites]), hsites]
  · rename_i hname
    have hsites : sites (marks ++ [.use other address]) name = sites marks name := by
      simp [sites, site?, hname]
    rw [known, known, lastBinder?_concat_use, hsites]

end Mark

/-! ## The scope of an injector -/

namespace Step

open Mark

/-- The scope is a summary of some marks. -/
def Summarizes (scope : Scope) (marks : List Mark) : Prop :=
  ∀ name, scope[name]? = known marks name

namespace Summarizes

variable {scope : Scope} {marks : List Mark} {name : String}

theorem empty : Summarizes .empty [] := by
  intro name
  rw [known_nil]
  exact Std.TreeMap.getElem?_emptyc

/-- The cells that wait for a name are those of its uses, as long as it has no binder. -/
theorem sites_eq (h : Summarizes scope marks) (hlast : lastBinder? marks name = none) :
    scope.sites name = sites marks name := by
  unfold Scope.sites
  rw [h name]
  by_cases hsites : sites marks name = []
  · rw [known_of_sites_eq_nil hlast hsites, hsites]
  · rw [known_of_sites_ne_nil hlast hsites]

/-- No cell waits for a name that has a binder. -/
theorem sites_eq_nil (h : Summarizes scope marks) {found : Binder}
    (hlast : lastBinder? marks name = some found) : scope.sites name = [] := by
  unfold Scope.sites
  rw [h name, known_of_lastBinder? hlast]

theorem bound_iff (h : Summarizes scope marks) {word : Word} :
    scope[name]? = some (.bound word) ↔
      ∃ found, lastBinder? marks name = some found ∧ found.word = word := by
  rw [h name]
  cases hlast : lastBinder? marks name with
  | some found => simp [known_of_lastBinder? hlast]
  | none =>
    by_cases hsites : sites marks name = []
    · simp [known_of_sites_eq_nil hlast hsites]
    · simp [known_of_sites_ne_nil hlast hsites]

/-- Each step keeps the scope a summary of the marks. -/
theorem scopeAfter (h : Summarizes scope marks) (step : Step) :
    Summarizes (step.scopeAfter scope) (marks ++ step.mark?.toList) := by
  intro name
  cases step with
  | check tag value | unlinked other address | store address tag label payload =>
    rw [mark?, Option.toList_none, List.append_nil]
    exact h name
  | reserve cells =>
    rw [mark?, Option.toList_some, known_concat_block]
    exact h name
  | bind found =>
    rw [mark?, Option.toList_some, known_concat_binder, Step.scopeAfter, Scope.bind,
      Std.TreeMap.getElem?_insert, h name]
    simp
  | use other address =>
    rw [mark?, Option.toList_some, Step.scopeAfter]
    cases hlast : lastBinder? marks other with
    | some found =>
      rw [known_concat_use_of_bound hlast, h.bound_iff.mpr ⟨found, hlast, rfl⟩]
      exact h name
    | none =>
      rw [known_concat_use_of_not_bound hlast]
      have hwaits : ∀ word, scope[other]? ≠ some (.bound word) := by
        intro word hbound
        obtain ⟨found, hfound, _⟩ := h.bound_iff.mp hbound
        rw [hlast] at hfound
        cases hfound
      split
      · rename_i word hbound
        exact absurd hbound (hwaits word)
      · rw [Scope.addSite, Std.TreeMap.getElem?_insert, h.sites_eq hlast, h name]
        simp only [Std.compare_eq_iff_eq]
        split
        · rename_i hname
          rw [hname]
        · rfl

end Summarizes

/-! ## The marks of steps -/

variable {steps : List Step} {name : String} {address : Nat}

theorem mem_sites_iff {name : String} :
    address ∈ sites (marks steps) name ↔ .use name address ∈ steps := by
  simp only [sites, marks, List.mem_filterMap]
  constructor
  · rintro ⟨mark, ⟨step, hstep, hmark⟩, hsite⟩
    cases step <;> simp [mark?] at hmark <;> subst hmark <;> simp [site?] at hsite
    obtain ⟨rfl, rfl⟩ := hsite
    exact hstep
  · intro huse
    exact ⟨_, ⟨_, huse, rfl⟩, by simp [site?]⟩

theorem mem_binders_iff {found : Binder} :
    found ∈ binders (marks steps) ↔ .bind found ∈ steps := by
  simp only [binders, marks, List.mem_filterMap]
  constructor
  · rintro ⟨mark, ⟨step, hstep, hmark⟩, hbinder⟩
    cases step <;> simp [mark?] at hmark <;> subst hmark <;> simp [binder?] at hbinder
    subst hbinder
    exact hstep
  · intro hbind
    exact ⟨_, ⟨_, hbind, rfl⟩, rfl⟩

/-- A use among the marks is one among the steps. -/
theorem exists_use_of_marks_eq {before after : List Mark}
    (h : marks steps = before ++ .use name address :: after) :
    ∃ first second, steps = first ++ .use name address :: second ∧ marks first = before ∧
      marks second = after := by
  obtain ⟨first, rest, rfl, hfirst, hrest⟩ := List.filterMap_eq_append_iff.mp h
  obtain ⟨skipped, step, second, rfl, hskipped, hstep, hsecond⟩ :=
    List.filterMap_eq_cons_iff.mp hrest
  have huse : step = .use name address := by
    cases step <;> simp [mark?] at hstep
    rw [hstep.1, hstep.2]
  have hnone : marks skipped = [] := List.filterMap_eq_nil_iff.mpr hskipped
  refine ⟨first ++ skipped, second, by rw [huse, List.append_assoc], ?_, hsecond⟩
  rw [marks_append, hnone, List.append_nil]
  exact hfirst

theorem marks_cons (step : Step) (steps : List Step) :
    marks (step :: steps) = step.mark?.toList ++ marks steps := by
  cases step <;> rfl

/-- Steps add their marks to those that the scope was a summary of before. -/
theorem Summarizes.after {injector : Injector} {before : List Mark}
    (h : Summarizes injector.scope before) (steps : List Step) :
    Summarizes (effectAll steps injector).scope (before ++ marks steps) := by
  induction steps generalizing injector before with
  | nil =>
    rw [marks_nil, List.append_nil]
    exact h
  | cons step steps ih =>
    have hstep : Summarizes (step.effect injector).scope (before ++ step.mark?.toList) :=
      h.scopeAfter step
    rw [marks_cons, ← List.append_assoc]
    exact ih hstep

/-- After steps on a fresh scope, the scope is a summary of their marks. -/
theorem summarizes_effectAll (steps : List Step) (heap : Heap) :
    Summarizes (effectAll steps (.new heap)).scope (marks steps) := by
  have hnew : Summarizes (Injector.new heap).scope [] := .empty
  exact hnew.after steps

end Step

end InteractionGraph
