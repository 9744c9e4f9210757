import InteractionGraph.Proofs.Inject.Known
import InteractionGraph.Proofs.Text.Bytes

/-!
# Names without a binder

A run of steps that succeeds may still leave names that wait for a binder, and `Scope.unbound?`
gives the least of them: by the order of the texts, which is the order of their bytes.  A name waits
in the end exactly when some use of it came up and no binder did, on whatever side of the use
(`Step.waits_effectAll_iff`).
-/

namespace InteractionGraph

namespace Scope

variable {scope : Scope} {name : String}

/-- A name still waits for its binder. -/
def Waits (scope : Scope) (name : String) : Prop := ∃ sites, scope[name]? = some (.pending sites)

theorem mem_toList_iff {binding : Binding} :
    (name, binding) ∈ scope.toList ↔ scope[name]? = some binding :=
  Std.TreeMap.mem_toList_iff_getElem?_eq_some

/-- The names that wait are those of the entries that `unbound?` looks for. -/
theorem waits_iff_mem_toList :
    scope.Waits name ↔ ∃ entry ∈ scope.toList, isPending entry.2 = true ∧ entry.1 = name := by
  constructor
  · rintro ⟨sites, hsites⟩
    exact ⟨(name, .pending sites), mem_toList_iff.mpr hsites, rfl, rfl⟩
  · rintro ⟨⟨other, binding⟩, hmem, hpending, rfl⟩
    cases binding with
    | pending sites => exact ⟨sites, mem_toList_iff.mp hmem⟩
    | bound word => cases hpending

theorem unbound?_eq_none_iff : scope.unbound? = none ↔ ∀ name, ¬ scope.Waits name := by
  rw [unbound?, Option.map_eq_none_iff, List.find?_eq_none]
  constructor
  · intro hnone name hwaits
    obtain ⟨entry, hmem, hpending, _⟩ := waits_iff_mem_toList.mp hwaits
    exact hnone entry hmem hpending
  · intro hnone entry hmem hpending
    exact hnone entry.1 (waits_iff_mem_toList.mpr ⟨entry, hmem, hpending, rfl⟩)

/-- Some name that waits comes before all others. -/
theorem least_of_unbound? (h : scope.unbound? = some name) :
    scope.Waits name ∧ ∀ other, scope.Waits other → utf8 name ≤ utf8 other := by
  obtain ⟨entry, hfind, rfl⟩ := Option.map_eq_some_iff.mp h
  obtain ⟨hpending, before, after, hsplit, hbefore⟩ := List.find?_eq_some_iff_append.mp hfind
  have hmem : entry ∈ scope.toList := by
    rw [hsplit]
    exact List.mem_append_right _ List.mem_cons_self
  refine ⟨waits_iff_mem_toList.mpr ⟨entry, hmem, hpending, rfl⟩, ?_⟩
  intro other hother
  obtain ⟨found, hfound, hfoundPending, rfl⟩ := waits_iff_mem_toList.mp hother
  rw [utf8_le_utf8_iff]
  -- The entries come in the order of the names, and none before the one that was found waits.
  have hordered : scope.toList.Pairwise fun first second => compare first.1 second.1 = .lt :=
    Std.TreeMap.ordered_keys_toList
  rw [hsplit] at hfound hordered
  rcases List.mem_append.mp hfound with hin | hin
  · have hnot := hbefore found hin
    rw [hfoundPending] at hnot
    cases hnot
  · rcases List.mem_cons.mp hin with rfl | hin
    · exact String.le_refl _
    · have hlt := (List.pairwise_cons.mp (List.pairwise_append.mp hordered).2.1).1 found hin
      exact le_of_lt (compareOfLessAndEq_eq_lt.mp hlt)

end Scope

namespace Step

open Mark

theorem Summarizes.waits_iff {scope : Scope} {marks : List Mark} {name : String}
    (h : Summarizes scope marks) :
    scope.Waits name ↔ lastBinder? marks name = none ∧ sites marks name ≠ [] := by
  unfold Scope.Waits
  rw [h name]
  cases hlast : lastBinder? marks name with
  | some found => simp [known_of_lastBinder? hlast]
  | none =>
    by_cases hsites : sites marks name = []
    · simp [known_of_sites_eq_nil hlast hsites, hsites]
    · simp [known_of_sites_ne_nil hlast hsites, hsites]

/-- After steps on a fresh scope, a name waits if it was used and never bound. -/
theorem waits_effectAll_iff {steps : List Step} {heap : Heap} {name : String} :
    (effectAll steps (.new heap)).scope.Waits name ↔
      (∃ address, .use name address ∈ steps) ∧
        ∀ found, .bind found ∈ steps → found.name ≠ name := by
  rw [(summarizes_effectAll steps heap).waits_iff, lastBinder?_eq_none_iff, and_comm]
  simp only [mem_binders_iff, ne_eq, List.eq_nil_iff_forall_not_mem, not_forall, not_not,
    mem_sites_iff]

end Step

end InteractionGraph
