import InteractionGraph.Proofs.Inject.Frame

/-!
# What a scope remembers of a whole run

An injector is used for several terms, and what it knows of a name has to be right for all of them
together: a use in one term may be written by a binder in a later one, and a term that could not be
written to its end has left its binders and uses behind all the same.

`Tree.visits` are the binders and uses that come up while a term is written: all of them, or those
before the first request that is refused.  `Injector.Ran` collects them over any number of terms,
and `Injector.Moment` looks at such a run also while a term is being written.
`Injector.scope_of_moment` says that the scope is a summary of what came up so far and of nothing
else, so an injector that is done names the least of the names that were used somewhere and bound
nowhere.
-/

namespace InteractionGraph

open Step

/-! ## Marks that came up -/

namespace Mark

variable {marks : List Mark} {name : String} {address : Nat} {found : Binder}

theorem mem_sites_iff : address ∈ sites marks name ↔ .use name address ∈ marks := by
  simp only [sites, List.mem_filterMap]
  constructor
  · rintro ⟨mark, hmark, hsite⟩
    cases mark with
    | block cells | binder other => cases hsite
    | use other place =>
      obtain ⟨rfl, heq⟩ := Option.ite_none_right_eq_some.mp hsite
      rw [← Option.some.inj heq]
      exact hmark
  · intro huse
    exact ⟨_, huse, if_pos rfl⟩

theorem mem_binders_iff : found ∈ binders marks ↔ .binder found ∈ marks := by
  simp only [binders, List.mem_filterMap]
  constructor
  · rintro ⟨mark, hmark, hbinder⟩
    cases mark <;> cases hbinder
    exact hmark
  · intro hfound
    exact ⟨_, hfound, rfl⟩

/-- A name came up in a use. -/
def Used (marks : List Mark) (name : String) : Prop := ∃ address, .use name address ∈ marks

/-- A binder of a name came up. -/
def Bound (marks : List Mark) (name : String) : Prop :=
  ∃ found, .binder found ∈ marks ∧ found.name = name

theorem sites_ne_nil_iff : sites marks name ≠ [] ↔ Used marks name := by
  simp only [ne_eq, List.eq_nil_iff_forall_not_mem, mem_sites_iff, not_forall, not_not, Used]

theorem lastBinder?_eq_none_iff_not_bound :
    lastBinder? marks name = none ↔ ¬ Bound marks name := by
  simp only [lastBinder?_eq_none_iff, mem_binders_iff, Bound, not_exists, not_and, ne_eq]

end Mark

/-! ## How far a run gets -/

namespace Step

/-- The steps that are carried out on a heap with `used` cells: those before the first one whose
request is refused. -/
def granted (capacity : Nat) : Nat → List Step → List Step
  | _, [] => []
  | used, step :: steps =>
    match step.error? capacity used with
    | some _ => []
    | none => step :: granted capacity (used + step.cellCount) steps

/-- A run leaves what the steps make that are carried out, whether it succeeds or fails. -/
theorem Run.stateAfter_eq {injector : Injector} {steps : List Step}
    {result : EStateM.Result InjectError Injector Unit} (h : Run steps injector result) :
    stateAfter result =
      effectAll (granted injector.heap.capacity injector.heap.size steps) injector := by
  induction h with
  | done injector => rfl
  | refused steps herror => simp only [granted, herror, stateAfter, effectAll_nil]
  | next herror _ _ _ ih =>
    rw [ih, granted, herror, size_effect, capacity_effect]
    rfl

end Step

/-- The blocks, binders and uses that are met while a term is written into the cell `host`, up to
the first request that is refused. -/
def Tree.visits (tree : Tree) (host : Nat) (heap : Heap) : List Mark :=
  marks (granted heap.capacity heap.size (tree.steps host heap.size))

/-- Any number of terms were written with the injector `first`, each of them into a cell in use, and
some of them perhaps not to the end.  On the way `visited` was met. -/
inductive Injector.Ran (first : Injector) : List Mark → Injector → Prop where
  | nothing : Ran first [] first
  | inject {visited : List Mark} {injector : Injector} (tree : Tree) {host : Nat} :
    Ran first visited injector → host < injector.heap.size →
      Ran first (visited ++ tree.visits host injector.heap)
        (stateAfter (tree.inject host injector))

/-- A moment of such a run: no term is being written, or some steps of one were carried out. -/
inductive Injector.Moment (first : Injector) : List Mark → Injector → Prop where
  | between {visited : List Mark} {injector : Injector} :
    Ran first visited injector → Moment first visited injector
  | within {visited : List Mark} {injector inside : Injector} (tree : Tree) {host : Nat}
    {before after : List Step} :
    Ran first visited injector → host < injector.heap.size →
      tree.steps host injector.heap.size = before ++ after →
      performAll before injector = .ok () inside →
      Moment first (visited ++ marks before) inside

namespace Injector

variable {first injector inside : Injector} {visited earlier : List Mark} {name : String}

/-- The injector is in order, and its scope is a summary of what was met. -/
structure Remembers (injector : Injector) (visited : List Mark) : Prop where
  sound : injector.Sound
  valid : injector.heap.Valid
  summarizes : Summarizes injector.scope visited

/-- Writing a term adds what is met on the way, wherever it ends. -/
theorem Remembers.inject (h : injector.Remembers visited) (tree : Tree) {host : Nat}
    (hhost : host < injector.heap.size) :
    (stateAfter (tree.inject host injector)).Remembers
      (visited ++ tree.visits host injector.heap) := by
  have hrun : Run (tree.steps host injector.heap.size) injector (tree.inject host injector) := by
    rw [Tree.inject_eq_performAll]
    exact run_of_guarded (tree.guarded_steps_of_lt hhost) h.sound h.valid
  refine ⟨hrun.sound h.sound, hrun.valid h.valid, ?_⟩
  rw [hrun.stateAfter_eq]
  exact h.summarizes.after _

theorem Ran.remembers {heap : Heap} (h : (Injector.new heap).Ran visited injector)
    (hvalid : heap.Valid) : injector.Remembers visited := by
  induction h with
  | nothing => exact ⟨sound_new heap, hvalid, .empty⟩
  | inject tree _ hhost ih => exact ih.inject tree hhost

/-- At every moment the scope is a summary of what was met so far. -/
theorem Moment.summarizes {heap : Heap} (h : (Injector.new heap).Moment visited injector)
    (hvalid : heap.Valid) : Summarizes injector.scope visited := by
  cases h with
  | between hran => exact (hran.remembers hvalid).summarizes
  | within tree hran _ _ hrun =>
    obtain ⟨_, rfl⟩ := performAll_eq_ok_iff.mp hrun
    exact (hran.remembers hvalid).summarizes.after _

end Injector

/-! ## What is known of a name -/

namespace Step.Summarizes

variable {injector : Injector} {scope : Scope} {visited : List Mark} {name : String}

theorem pending_iff (h : Summarizes scope visited) {sites : List Nat} :
    scope[name]? = some (.pending sites) ↔
      Mark.Used visited name ∧ ¬ Mark.Bound visited name ∧ sites = Mark.sites visited name := by
  rw [h name, ← Mark.sites_ne_nil_iff, ← Mark.lastBinder?_eq_none_iff_not_bound]
  cases hlast : Mark.lastBinder? visited name with
  | some found => simp [Mark.known_of_lastBinder? hlast]
  | none =>
    by_cases hsites : Mark.sites visited name = []
    · simp [Mark.known_of_sites_eq_nil hlast hsites, hsites]
    · simp [Mark.known_of_sites_ne_nil hlast hsites, hsites, eq_comm]

theorem unknown_iff (h : Summarizes scope visited) :
    scope[name]? = none ↔ ¬ Mark.Used visited name ∧ ¬ Mark.Bound visited name := by
  rw [h name, ← Mark.sites_ne_nil_iff, ← Mark.lastBinder?_eq_none_iff_not_bound]
  cases hlast : Mark.lastBinder? visited name with
  | some found => simp [Mark.known_of_lastBinder? hlast]
  | none =>
    by_cases hsites : Mark.sites visited name = []
    · simp [Mark.known_of_sites_eq_nil hlast hsites, hsites]
    · simp [Mark.known_of_sites_ne_nil hlast hsites, hsites]

/-- What comes up later does not unbind a name. -/
theorem bound_of_append (h : Summarizes scope visited) {later : Scope} {more : List Mark}
    (hlater : Summarizes later (visited ++ more))
    (hbound : ∃ word, scope[name]? = some (.bound word)) :
    ∃ word, later[name]? = some (.bound word) := by
  obtain ⟨word, hword⟩ := hbound
  obtain ⟨found, hfound, _⟩ := h.bound_iff.mp hword
  have hmem := Mark.mem_binders_iff.mp (Mark.mem_of_lastBinder? hfound)
  cases hlast : Mark.lastBinder? (visited ++ more) name with
  | some last => exact ⟨last.word, hlater.bound_iff.mpr ⟨last, hlast, rfl⟩⟩
  | none =>
    exact absurd ⟨found, List.mem_append_left more hmem, Mark.name_of_lastBinder? hfound⟩
      (Mark.lastBinder?_eq_none_iff_not_bound.mp hlast)

theorem waits_iff_used (h : Summarizes scope visited) :
    scope.Waits name ↔ Mark.Used visited name ∧ ¬ Mark.Bound visited name := by
  rw [h.waits_iff, Mark.lastBinder?_eq_none_iff_not_bound, Mark.sites_ne_nil_iff, and_comm]

theorem finish_eq_ok_iff (h : Summarizes injector.scope visited) :
    injector.finish = .ok () ↔ ∀ name, Mark.Used visited name → Mark.Bound visited name := by
  have hnone : injector.finish = .ok () ↔ injector.scope.unbound? = none := by
    unfold Injector.finish
    cases injector.scope.unbound? <;> simp
  simp only [hnone, Scope.unbound?_eq_none_iff, h.waits_iff_used, not_and, not_not]

/-- The name that an injector fails with is the least of those that wait. -/
theorem finish_eq_error_iff (h : Summarizes injector.scope visited) {error : InjectError} :
    injector.finish = .error error ↔
      ∃ name, error = .unboundVariable name ∧
        (Mark.Used visited name ∧ ¬ Mark.Bound visited name) ∧
        ∀ other, Mark.Used visited other ∧ ¬ Mark.Bound visited other →
          utf8 name ≤ utf8 other := by
  simp only [← h.waits_iff_used]
  unfold Injector.finish
  cases hunbound : injector.scope.unbound? with
  | none => simp [Scope.unbound?_eq_none_iff.mp hunbound]
  | some least =>
    obtain ⟨hwaits, hleast⟩ := Scope.least_of_unbound? hunbound
    simp only [Except.error.injEq]
    constructor
    · rintro rfl
      exact ⟨least, rfl, hwaits, hleast⟩
    · rintro ⟨name, rfl, hname, hnameLeast⟩
      -- Both names are the least one.
      have hsame : least = name := le_antisymm
        (utf8_le_utf8_iff.mp (hleast name hname)) (utf8_le_utf8_iff.mp (hnameLeast least hwaits))
      rw [hsame]

end Step.Summarizes

namespace Injector

variable {injector : Injector} {visited : List Mark}

/-- At every moment of a run, whatever terms were written and whichever of them failed, a name is
bound if some binder of it came up, and then to the word of the last one; it waits in the cells of
its uses, in their order, if it was used and no binder came up; and nothing is known of it
otherwise.  A name that is bound stays bound.  So an injector that is done fails exactly if some
name was used and never bound, with the least of these names in the order of their bytes. -/
theorem scope_of_moment {heap : Heap} (hvalid : heap.Valid)
    (h : (Injector.new heap).Moment visited injector) :
    (∀ name,
      (∀ word, injector.scope[name]? = some (.bound word) ↔
        ∃ found, Mark.lastBinder? visited name = some found ∧ found.word = word) ∧
      (∀ sites, injector.scope[name]? = some (.pending sites) ↔
        Mark.Used visited name ∧ ¬ Mark.Bound visited name ∧ sites = Mark.sites visited name) ∧
      (injector.scope[name]? = none ↔
        ¬ Mark.Used visited name ∧ ¬ Mark.Bound visited name)) ∧
    (∀ more later (name : String), (Injector.new heap).Moment (visited ++ more) later →
      (∃ word, injector.scope[name]? = some (.bound word)) →
        ∃ word, later.scope[name]? = some (.bound word)) ∧
    (injector.finish = .ok () ↔
      ∀ name, Mark.Used visited name → Mark.Bound visited name) ∧
    ∀ error, injector.finish = .error error ↔
      ∃ name, error = .unboundVariable name ∧
        (Mark.Used visited name ∧ ¬ Mark.Bound visited name) ∧
        ∀ other, Mark.Used visited other ∧ ¬ Mark.Bound visited other →
          utf8 name ≤ utf8 other := by
  have hscope := h.summarizes hvalid
  refine ⟨fun name => ⟨fun _ => hscope.bound_iff, fun _ => hscope.pending_iff,
    hscope.unknown_iff⟩, ?_, hscope.finish_eq_ok_iff, fun _ => hscope.finish_eq_error_iff⟩
  intro more later name hlater hbound
  exact hscope.bound_of_append (hlater.summarizes hvalid) hbound

/-- A constructor is refused, for want of cells, behind a use of `y` and one of `x`.  A lambda that
is written next binds `x`, so the use of `y` is the only one left, and the injector fails with it
although it came up in the term that was refused. -/
theorem scope_of_moment_resumed :
    let refused : Tree := .app (.var "y") (.app (.var "x") (.ctr 0 [.era, .era, .era, .era, .era]))
    let resumed : Tree := .lam "x" (.var "x")
    let start : Injector := .new ⟨#[.void], 9⟩
    let between := stateAfter (refused.inject 0 start)
    let last := stateAfter (resumed.inject 0 between)
    let visited : List Mark := [.block ⟨1, 2⟩, .use "y" 1, .block ⟨3, 2⟩, .use "x" 3,
      .block ⟨5, 2⟩, .binder ⟨"x", 5, .var, 0, 5⟩, .use "x" 6]
    start.heap.Valid ∧ refused.inject 0 start = .error (.heap (.outOfMemory 5 5 9)) between ∧
      start.Moment visited last ∧
      last.scope["x"]? = some (.bound (.pack .var 0 5)) ∧
      last.scope["y"]? = some (.pending [1]) ∧
      last.finish = .error (.unboundVariable "y") := by
  intro refused resumed start between last visited
  have hvalid : start.heap.Valid := by decide
  have hmoment : start.Moment visited last :=
    .between (.inject resumed (.inject refused .nothing (by decide)) (by decide))
  obtain ⟨hknown, -, -, hfinish⟩ := scope_of_moment hvalid hmoment
  have hy : Mark.Used visited "y" ∧ ¬ Mark.Bound visited "y" := by
    simp [visited, Mark.Used, Mark.Bound]
  refine ⟨hvalid, by rfl, hmoment, ?_, ?_, ?_⟩
  · exact ((hknown "x").1 _).mpr ⟨⟨"x", 5, .var, 0, 5⟩, rfl, rfl⟩
  · exact ((hknown "y").2.1 [1]).mpr ⟨hy.1, hy.2, rfl⟩
  · refine (hfinish _).mpr ⟨"y", rfl, hy, ?_⟩
    rintro other ⟨hused, hunbound⟩
    have hother : other = "y" := by
      simp [visited, Mark.Used, Mark.Bound] at hused hunbound
      tauto
    exact utf8_le_utf8_iff.mpr (le_of_eq hother.symm)

end Injector

end InteractionGraph
