import InteractionGraph.Proofs.Inject.Outcome
import Mathlib.Data.Set.Function

/-!
# Names are only compared

Writing a term compares the names of its variables with one another, and does nothing else with
them.  If other names are given to them, different ones to different names, the same steps are taken
on the same heap, whether they succeed or not (`Tree.injectAt_rename`).

The two runs go side by side.  The heaps are the same all the time; of the scopes, the one knows of
the new names what the other knows of the old ones (`Scope.Renames`).  That is all that the
operations of an injector ask a scope, so each of them is mirrored, and so is what is made of them.

The end is the one place where names are put in an order.  It has nothing to do with the order of
the old names, so the name that an unbound variable is reported with may belong to another variable
than before.
-/

namespace InteractionGraph

variable {r : String → String} {names : Set String}

/-! ## Scopes with other names -/

namespace Scope

/-- The second scope knows of the new names what the first knows of the old ones, and knows no other
names. -/
structure Renames (r : String → String) (names : Set String) (scope renamed : Scope) : Prop where
  getElem?_eq : ∀ name ∈ names, renamed[r name]? = scope[name]?
  mem_of_known : ∀ other, renamed[other]? ≠ none → ∃ name ∈ names, r name = other

variable {scope renamed : Scope} {name : String}

theorem renames_empty : Renames r names .empty .empty where
  getElem?_eq _ _ := rfl
  mem_of_known _ hother := absurd rfl hother

namespace Renames

theorem insert (h : Renames r names scope renamed) (hinj : Set.InjOn r names) (hname : name ∈ names)
    (binding : Binding) :
    Renames r names (scope.insert name binding) (renamed.insert (r name) binding) where
  getElem?_eq other hother := by
    simp only [Std.TreeMap.getElem?_insert, Std.LawfulEqCmp.compare_eq_iff_eq,
      hinj.eq_iff hname hother, h.getElem?_eq other hother]
  mem_of_known other hother := by
    rw [Std.TreeMap.getElem?_insert] at hother
    split at hother
    · rename_i heq
      exact ⟨name, hname, Std.LawfulEqCmp.compare_eq_iff_eq.mp heq⟩
    · exact h.mem_of_known other hother

theorem sites_eq (h : Renames r names scope renamed) (hname : name ∈ names) :
    renamed.sites (r name) = scope.sites name := by
  rw [Scope.sites, Scope.sites, h.getElem?_eq name hname]

/-- The new names that wait are those of the old names that do. -/
theorem waits_iff (h : Renames r names scope renamed) {other : String} :
    renamed.Waits other ↔ ∃ name ∈ names, r name = other ∧ scope.Waits name := by
  constructor
  · rintro ⟨sites, hsites⟩
    obtain ⟨name, hname, rfl⟩ := h.mem_of_known other (by simp [hsites])
    exact ⟨name, hname, rfl, sites, (h.getElem?_eq name hname).symm.trans hsites⟩
  · rintro ⟨name, hname, rfl, sites, hsites⟩
    exact ⟨sites, (h.getElem?_eq name hname).trans hsites⟩

end Renames

end Scope

/-! ## Steps that are mirrored -/

/-- The heaps are the same, and the second scope has the new names for the old ones. -/
structure Injector.Renames (r : String → String) (names : Set String)
    (injector renamed : Injector) : Prop where
  heap_eq : renamed.heap = injector.heap
  scope : Scope.Renames r names injector.scope renamed.scope

namespace Injection

variable {α β : Type}

/-- Both succeed with the same value, or both fail with the same heap and the same error, which is
not that of an unbound variable. -/
inductive Alike (r : String → String) (names : Set String) :
    EStateM.Result InjectError Injector α → EStateM.Result InjectError Injector α → Prop where
  | ok {value : α} {injector renamed : Injector} :
    Injector.Renames r names injector renamed →
      Alike r names (.ok value injector) (.ok value renamed)
  | error {error : InjectError} {injector renamed : Injector} :
    renamed.heap = injector.heap → (∀ name, error ≠ .unboundVariable name) →
      Alike r names (.error error injector) (.error error renamed)

/-- The second step does with the new names what the first does with the old ones. -/
def Mirrored (r : String → String) (names : Set String) (step mirror : Injection α) : Prop :=
  ∀ injector renamed, Injector.Renames r names injector renamed →
    Alike r names (step injector) (mirror renamed)

variable {name : String}

theorem mirrored_pure (value : α) : Mirrored r names (pure value) (pure value) :=
  fun _ _ h => .ok h

theorem mirrored_throw {error : InjectError} (herror : ∀ name, error ≠ .unboundVariable name) :
    Mirrored r names (throw error : Injection α) (throw error) :=
  fun _ _ h => .error h.heap_eq herror

theorem Mirrored.bind {step mirror : Injection α} {next other : α → Injection β}
    (h : Mirrored r names step mirror)
    (hnext : ∀ value, Mirrored r names (next value) (other value)) :
    Mirrored r names (step >>= next) (mirror >>= other) := by
  intro injector renamed hrenames
  have halike := h injector renamed hrenames
  generalize hstep : step injector = result at halike
  generalize hmirror : mirror renamed = reflected at halike
  cases halike with
  | ok hafter =>
    rw [bind_of_ok hstep, bind_of_ok hmirror]
    exact hnext _ _ _ hafter
  | error hheap herror =>
    rw [bind_of_error hstep, bind_of_error hmirror]
    exact .error hheap herror

/-! ## Operations that know no names -/

theorem mirrored_alloc {count : Nat} : Mirrored r names (alloc count) (alloc count) := by
  intro injector renamed h
  unfold alloc
  rw [h.heap_eq]
  cases injector.heap.alloc count with
  | ok reply => exact .ok ⟨rfl, h.scope⟩
  | error error => exact .error h.heap_eq nofun

theorem mirrored_write {address : Nat} {word : Word} :
    Mirrored r names (write address word) (write address word) := by
  intro injector renamed h
  unfold write
  rw [h.heap_eq]
  cases injector.heap.write address word with
  | ok heap => exact .ok ⟨rfl, h.scope⟩
  | error error => exact .error h.heap_eq nofun

theorem mirrored_encode {tag : Tag} {label payload : Nat} :
    Mirrored r names (encode tag label payload) (encode tag label payload) := by
  unfold encode
  cases Word.encode? tag label payload with
  | some word => exact mirrored_pure word
  | none => exact mirrored_throw nofun

theorem mirrored_writeNode {host : Nat} {tag : Tag} {label payload : Nat} :
    Mirrored r names (writeNode host tag label payload) (writeNode host tag label payload) :=
  mirrored_encode.bind fun _ => mirrored_write

theorem mirrored_checkLabel {tag : Tag} {value : Nat} :
    Mirrored r names (checkLabel tag value) (checkLabel tag value) := by
  unfold checkLabel
  split
  · exact mirrored_pure ()
  · exact mirrored_throw nofun

theorem mirrored_writeAll {word : Word} {addresses : List Nat} :
    Mirrored r names (writeAll word addresses) (writeAll word addresses) := by
  induction addresses with
  | nil => exact mirrored_pure ()
  | cons address addresses ih => exact mirrored_write.bind fun _ => ih

/-! ## Binders and uses -/

theorem mirrored_bindName (hinj : Set.InjOn r names) (hname : name ∈ names) (slot : Nat)
    (word : Word) : Mirrored r names (bindName name slot word) (bindName (r name) slot word) := by
  refine mirrored_write.bind fun _ => .bind ?_ fun _ => mirrored_writeAll
  intro injector renamed h
  have hafter : Injector.Renames r names
      { injector with scope := injector.scope.bind name word }
      { renamed with scope := renamed.scope.bind (r name) word } :=
    ⟨h.heap_eq, h.scope.insert hinj hname _⟩
  change Alike r names (.ok (injector.scope.sites name) _) (.ok (renamed.scope.sites (r name)) _)
  rw [h.scope.sites_eq hname]
  exact .ok hafter

theorem mirrored_useName (hinj : Set.InjOn r names) (hname : name ∈ names) (host : Nat) :
    Mirrored r names (useName name host) (useName (r name) host) := by
  intro injector renamed h
  have hknown := h.scope.getElem?_eq name hname
  by_cases hbound : ∃ word, injector.scope[name]? = some (.bound word)
  · obtain ⟨word, hword⟩ := hbound
    rw [useName_of_bound hword, useName_of_bound (hknown.trans hword)]
    exact mirrored_write injector renamed h
  · rw [not_exists] at hbound
    rw [useName_of_not_bound hbound, useName_of_not_bound (hknown ▸ hbound)]
    refine .ok ⟨h.heap_eq, ?_⟩
    rw [Scope.addSite, Scope.addSite, h.scope.sites_eq hname]
    exact h.scope.insert hinj hname _

end Injection

/-! ## Terms with other names -/

namespace Tree

open Injection

mutual

/-- The term with other names for its variables.  References are not variables. -/
def rename (r : String → String) : Tree → Tree
  | .era => .era
  | .lam name body => .lam (r name) (body.rename r)
  | .app function argument => .app (function.rename r) (argument.rename r)
  | .sup label left right => .sup label (left.rename r) (right.rename r)
  | .dup label first second value body =>
    .dup label (r first) (r second) (value.rename r) (body.rename r)
  | .ref name id? => .ref name id?
  | .var name => .var (r name)
  | .ctr id fields => .ctr id (renameFields r fields)
  | .mat scrutinee arms => .mat (scrutinee.rename r) (renameArms r arms)
  | .op2 operator left right => .op2 operator (left.rename r) (right.rename r)
  | .u32 value => .u32 value

/-- The fields of a constructor with other names for their variables. -/
def renameFields (r : String → String) : List Tree → List Tree
  | [] => []
  | field :: fields => field.rename r :: renameFields r fields

/-- The arms of a match with other names for their variables. -/
def renameArms (r : String → String) : List (UInt32 × Tree) → List (UInt32 × Tree)
  | [] => []
  | (id, body) :: arms => (id, body.rename r) :: renameArms r arms

end

@[simp]
theorem length_renameFields (fields : List Tree) :
    (renameFields r fields).length = fields.length := by
  induction fields with
  | nil => rfl
  | cons field fields ih => simp [renameFields, ih]

@[simp]
theorem isEmpty_renameFields (fields : List Tree) :
    (renameFields r fields).isEmpty = fields.isEmpty := by
  cases fields <;> rfl

@[simp]
theorem length_renameArms (arms : List (UInt32 × Tree)) :
    (renameArms r arms).length = arms.length := by
  induction arms with
  | nil => rfl
  | cons arm arms ih => simp [renameArms, ih]

/-- The names of the variables that occur in some nodes, bound there or used. -/
def NamesIn (nodes : List Tree) : Set String :=
  {name | .var name ∈ nodes ∨ ∃ node ∈ nodes, name ∈ node.boundNames}

variable {nodes : List Tree}

mutual

theorem mirrored_inject (hinj : Set.InjOn r (NamesIn nodes)) (tree : Tree) (host : Nat)
    (hnodes : tree.nodes ⊆ nodes) :
    Mirrored r (NamesIn nodes) (tree.inject host) ((tree.rename r).inject host) := by
  cases tree with
  | era => exact mirrored_write
  | lam name body =>
    rw [rename, inject, inject]
    obtain ⟨hnode, hbody⟩ := List.cons_subset.mp hnodes
    have hname : name ∈ NamesIn nodes := .inr ⟨_, hnode, List.mem_cons_self⟩
    exact mirrored_alloc.bind fun node => mirrored_encode.bind fun use =>
      (mirrored_bindName hinj hname node use).bind fun _ =>
        (mirrored_inject hinj body _ hbody).bind fun _ => mirrored_writeNode
  | app function argument =>
    rw [rename, inject, inject]
    obtain ⟨hfunction, hargument⟩ := List.append_subset.mp (List.cons_subset.mp hnodes).2
    exact mirrored_alloc.bind fun node => (mirrored_inject hinj function _ hfunction).bind
      fun _ => (mirrored_inject hinj argument _ hargument).bind fun _ => mirrored_writeNode
  | sup label left right =>
    rw [rename, inject, inject]
    obtain ⟨hleft, hright⟩ := List.append_subset.mp (List.cons_subset.mp hnodes).2
    exact mirrored_checkLabel.bind fun _ => mirrored_alloc.bind fun node =>
      (mirrored_inject hinj left _ hleft).bind fun _ =>
        (mirrored_inject hinj right _ hright).bind fun _ => mirrored_writeNode
  | dup label first second value body =>
    rw [rename, inject, inject]
    obtain ⟨hnode, hparts⟩ := List.cons_subset.mp hnodes
    obtain ⟨hvalue, hbody⟩ := List.append_subset.mp hparts
    have hfirst : first ∈ NamesIn nodes := .inr ⟨_, hnode, List.mem_cons_self⟩
    have hsecond : second ∈ NamesIn nodes :=
      .inr ⟨_, hnode, List.mem_cons_of_mem _ List.mem_cons_self⟩
    exact mirrored_checkLabel.bind fun _ => mirrored_alloc.bind fun node =>
      mirrored_encode.bind fun use => (mirrored_bindName hinj hfirst _ use).bind fun _ =>
        mirrored_encode.bind fun use => (mirrored_bindName hinj hsecond _ use).bind fun _ =>
          (mirrored_inject hinj value _ hvalue).bind fun _ => mirrored_inject hinj body _ hbody
  | ref name id? =>
    cases id? with
    | none => exact mirrored_throw nofun
    | some id => exact mirrored_writeNode
  | var name => exact mirrored_useName hinj (.inl (hnodes List.mem_cons_self)) host
  | ctr id fields =>
    rw [rename, inject, inject, isEmpty_renameFields, length_renameFields]
    have hfields := (List.cons_subset.mp hnodes).2
    have hrest : ∀ node, Mirrored r (NamesIn nodes)
        (injectFields fields node >>= fun _ => writeNode host .ctr id.toNat node)
        (injectFields (renameFields r fields) node >>=
          fun _ => writeNode host .ctr id.toNat node) :=
      fun node => (mirrored_injectFields hinj fields node hfields).bind fun _ => mirrored_writeNode
    refine mirrored_checkLabel.bind fun _ => ?_
    dsimp only
    split
    · exact (mirrored_pure 0).bind hrest
    · exact mirrored_alloc.bind hrest
  | mat scrutinee arms =>
    rw [rename, inject, inject, length_renameArms]
    obtain ⟨hscrutinee, harms⟩ := List.append_subset.mp (List.cons_subset.mp hnodes).2
    exact mirrored_checkLabel.bind fun _ => mirrored_alloc.bind fun node =>
      (mirrored_inject hinj scrutinee _ hscrutinee).bind fun _ =>
        (mirrored_injectArms hinj arms _ harms).bind fun _ => mirrored_writeNode
  | op2 operator left right =>
    rw [rename, inject, inject]
    obtain ⟨hleft, hright⟩ := List.append_subset.mp (List.cons_subset.mp hnodes).2
    exact mirrored_alloc.bind fun node => (mirrored_inject hinj left _ hleft).bind fun _ =>
      (mirrored_inject hinj right _ hright).bind fun _ => mirrored_writeNode
  | u32 value => exact mirrored_writeNode

theorem mirrored_injectFields (hinj : Set.InjOn r (NamesIn nodes)) (fields : List Tree)
    (address : Nat) (hnodes : nodesOfFields fields ⊆ nodes) :
    Mirrored r (NamesIn nodes) (injectFields fields address)
      (injectFields (renameFields r fields) address) := by
  cases fields with
  | nil => exact mirrored_pure ()
  | cons field fields =>
    rw [renameFields, injectFields, injectFields]
    obtain ⟨hfield, hfields⟩ := List.append_subset.mp hnodes
    exact (mirrored_inject hinj field _ hfield).bind fun _ =>
      mirrored_injectFields hinj fields _ hfields

theorem mirrored_injectArms (hinj : Set.InjOn r (NamesIn nodes)) (arms : List (UInt32 × Tree))
    (address : Nat) (hnodes : nodesOfArms arms ⊆ nodes) :
    Mirrored r (NamesIn nodes) (injectArms arms address)
      (injectArms (renameArms r arms) address) := by
  cases arms with
  | nil => exact mirrored_pure ()
  | cons arm arms =>
    obtain ⟨id, body⟩ := arm
    rw [renameArms, injectArms, injectArms]
    obtain ⟨hbody, harms⟩ := List.append_subset.mp hnodes
    exact mirrored_writeNode.bind fun _ => (mirrored_inject hinj body _ hbody).bind fun _ =>
      mirrored_injectArms hinj arms _ harms

end

/-! ## Units with other names -/

variable {tree : Tree} {heap left : Heap} {host : Nat} {injector : Injector} {done : Unit}
  {error : InjectError} {name : String}

theorem injectAt_of_error (h : tree.inject host (.new heap) = .error error injector) :
    tree.injectAt host heap = .error error injector.heap :=
  bind_of_error (HeapAction.withScope_of_error h)

theorem injectAt_of_unbound? (h : tree.inject host (.new heap) = .ok done injector)
    (hname : injector.scope.unbound? = some name) :
    tree.injectAt host heap = .error (.unboundVariable name) injector.heap :=
  bind_of_error (HeapAction.withScope_of_unbound? h hname)

theorem injectAt_of_unbound?_eq_none (h : tree.inject host (.new heap) = .ok done injector)
    (hnone : injector.scope.unbound? = none) :
    tree.injectAt host heap = HeapAction.read host injector.heap := by
  have hscope : HeapAction.withScope (tree.inject host) heap = .ok () injector.heap :=
    HeapAction.withScope_eq_ok_iff.mpr ⟨injector, h, Scope.unbound?_eq_none_iff.mp hnone, rfl⟩
  exact bind_of_ok hscope

theorem ne_unboundVariable_of_read (h : HeapAction.read host heap = .error error left) :
    error ≠ .unboundVariable name := by
  unfold HeapAction.read HeapAction.ofChange at h
  simp only at h
  cases hread : heap.read host with
  | ok word => simp [hread, Except.map] at h
  | error refused =>
    simp only [hread, Except.map, EStateM.Result.error.injEq] at h
    rw [← h.1]
    nofun

/-- After the term was written, the names wait that it uses and does not bind. -/
theorem waits_of_inject (h : tree.inject host (.new heap) = .ok done injector) :
    injector.scope.Waits name ↔ tree.Uses name ∧ ¬ tree.Binds name := by
  rw [inject_eq_performAll] at h
  rw [(Step.performAll_eq_ok_iff.mp h).2]
  exact waits_steps_iff tree host heap.size

/-- Of the new names of the variables that are used and bound nowhere, this is the least. -/
def IsLeastUnbound (tree : Tree) (r : String → String) (name : String) : Prop :=
  (∃ old, (tree.Uses old ∧ ¬ tree.Binds old) ∧ r old = name) ∧
    ∀ old, tree.Uses old → ¬ tree.Binds old → utf8 name ≤ utf8 (r old)

theorem IsLeastUnbound.unique {other : String} (h : tree.IsLeastUnbound r name)
    (hother : tree.IsLeastUnbound r other) : name = other := by
  obtain ⟨⟨old, hold, rfl⟩, hleast⟩ := h
  obtain ⟨⟨old', hold', rfl⟩, hleast'⟩ := hother
  refine le_antisymm ?_ ?_
  · exact utf8_le_utf8_iff.mp (hleast old' hold'.1 hold'.2)
  · exact utf8_le_utf8_iff.mp (hleast' old hold.1 hold.2)

section

variable {renamed : Injector} (hrun : tree.inject host (.new heap) = .ok done injector)
  (hscope : Scope.Renames r {name | tree.Uses name ∨ tree.Binds name} injector.scope renamed.scope)

include hrun hscope

theorem waits_renamed_iff :
    renamed.scope.Waits name ↔ ∃ old, (tree.Uses old ∧ ¬ tree.Binds old) ∧ r old = name := by
  rw [hscope.waits_iff]
  constructor
  · rintro ⟨old, -, rfl, hold⟩
    exact ⟨old, (waits_of_inject hrun).mp hold, rfl⟩
  · rintro ⟨old, hold, rfl⟩
    exact ⟨old, .inl hold.1, rfl, (waits_of_inject hrun).mpr hold⟩

theorem unbound?_renamed_eq_none_iff :
    renamed.scope.unbound? = none ↔ injector.scope.unbound? = none := by
  simp only [Scope.unbound?_eq_none_iff, waits_renamed_iff hrun hscope, ← waits_of_inject hrun]
  exact ⟨fun h name hname => h (r name) ⟨name, hname, rfl⟩, fun h _ ⟨old, hold, _⟩ => h old hold⟩

theorem isLeastUnbound_of_unbound? (h : renamed.scope.unbound? = some name) :
    tree.IsLeastUnbound r name := by
  obtain ⟨hname, hleast⟩ := Scope.least_of_unbound? h
  refine ⟨(waits_renamed_iff hrun hscope).mp hname, fun old huse hbind => ?_⟩
  exact hleast (r old) ((waits_renamed_iff hrun hscope).mpr ⟨old, ⟨huse, hbind⟩, rfl⟩)

end

/-- Both units are written alike, or fail alike, or have variables that are bound nowhere. -/
theorem injectAt_rename_cases (hinj : Set.InjOn r {name | tree.Uses name ∨ tree.Binds name})
    (heap : Heap) (host : Nat) :
    (∃ root left, tree.injectAt host heap = .ok root left ∧
      (tree.rename r).injectAt host heap = .ok root left) ∨
    (∃ error left, (∀ name, error ≠ .unboundVariable name) ∧
      tree.injectAt host heap = .error error left ∧
      (tree.rename r).injectAt host heap = .error error left) ∨
    ∃ old name left, tree.injectAt host heap = .error (.unboundVariable old) left ∧
      (tree.rename r).injectAt host heap = .error (.unboundVariable name) left ∧
      tree.IsLeastUnbound r name := by
  have halike := mirrored_inject hinj tree host (List.Subset.refl _) (.new heap) (.new heap)
    ⟨rfl, Scope.renames_empty⟩
  generalize hrun : tree.inject host (.new heap) = result at halike
  generalize hmirror : (tree.rename r).inject host (.new heap) = reflected at halike
  cases halike with
  | @error error injector renamed hheap herror =>
    exact .inr (.inl ⟨error, injector.heap, herror, injectAt_of_error hrun,
      hheap ▸ injectAt_of_error hmirror⟩)
  | @ok done injector renamed hrenames =>
    obtain ⟨hheap, hscope⟩ := hrenames
    cases hunbound : injector.scope.unbound? with
    | none =>
      have hleft := injectAt_of_unbound?_eq_none hrun hunbound
      have hright := injectAt_of_unbound?_eq_none hmirror
        ((unbound?_renamed_eq_none_iff hrun hscope).mpr hunbound)
      rw [hheap] at hright
      cases hread : HeapAction.read host injector.heap with
      | ok root left => exact .inl ⟨root, left, hleft.trans hread, hright.trans hread⟩
      | error error left =>
        exact .inr (.inl ⟨error, left, fun _ => ne_unboundVariable_of_read hread,
          hleft.trans hread, hright.trans hread⟩)
    | some old =>
      cases hnew : renamed.scope.unbound? with
      | none =>
        rw [(unbound?_renamed_eq_none_iff hrun hscope).mp hnew] at hunbound
        cases hunbound
      | some name =>
        exact .inr (.inr ⟨old, name, injector.heap, injectAt_of_unbound? hrun hunbound,
          hheap ▸ injectAt_of_unbound? hmirror hnew, isLeastUnbound_of_unbound? hrun hscope hnew⟩)

/-- If the names that occur in a term stay different under other names, the term with the other
names is written in the same cases, and leaves the same heap whether it is written or not.  It fails
with the same error, unless a variable is bound nowhere: this is then the one with the least of the
other names. -/
theorem injectAt_rename (tree : Tree) (r : String → String)
    (hinj : Set.InjOn r {name | tree.Uses name ∨ tree.Binds name}) (heap : Heap) (host : Nat) :
    (∀ root left, (tree.rename r).injectAt host heap = .ok root left ↔
      tree.injectAt host heap = .ok root left) ∧
    (∀ error left, (∀ name, error ≠ .unboundVariable name) →
      ((tree.rename r).injectAt host heap = .error error left ↔
        tree.injectAt host heap = .error error left)) ∧
    ∀ name left, (tree.rename r).injectAt host heap = .error (.unboundVariable name) left ↔
      (∃ old, tree.injectAt host heap = .error (.unboundVariable old) left) ∧
        tree.IsLeastUnbound r name := by
  rcases injectAt_rename_cases hinj heap host with ⟨root, left, htree, hrenamed⟩ |
    ⟨error, left, herror, htree, hrenamed⟩ | ⟨old, name, left, htree, hrenamed, hleast⟩
  · rw [htree, hrenamed]
    simp
  · rw [htree, hrenamed]
    simp [herror]
  · rw [htree, hrenamed]
    refine ⟨by simp, fun error left herror => ?_, fun other left => ⟨?_, ?_⟩⟩
    · constructor
      · rintro ⟨⟩
        exact absurd rfl (herror name)
      · rintro ⟨⟩
        exact absurd rfl (herror old)
    · rintro ⟨⟩
      exact ⟨⟨old, rfl⟩, hleast⟩
    · rintro ⟨⟨_, ⟨⟩⟩, hother⟩
      rw [hother.unique hleast]

/-- Neither of the two variables is bound.  The second one gets the smaller name, so the error is
about another variable than before. -/
theorem injectAt_rename_unbound :
    Set.InjOn (fun name => if name = "a" then "z" else "y")
        {name | (app (.var "a") (.var "b")).Uses name ∨ (app (.var "a") (.var "b")).Binds name} ∧
      (app (.var "a") (.var "b")).injectAt 0 ⟨#[.void], 3⟩ =
        .error (.unboundVariable "a") ⟨#[.pack .app 0 1, .void, .void], 3⟩ ∧
      (app (.var "z") (.var "y")).injectAt 0 ⟨#[.void], 3⟩ =
        .error (.unboundVariable "y") ⟨#[.pack .app 0 1, .void, .void], 3⟩ := by
  have hnames : ∀ name, (app (.var "a") (.var "b")).Uses name ∨
      (app (.var "a") (.var "b")).Binds name → name = "a" ∨ name = "b" := by
    simp [Uses, Binds, nodes, boundNames]
  have hinj : Set.InjOn (fun name => if name = "a" then "z" else "y")
      {name | (app (.var "a") (.var "b")).Uses name ∨
        (app (.var "a") (.var "b")).Binds name} := by
    intro first hfirst second hsecond
    rcases hnames first hfirst with rfl | rfl <;> rcases hnames second hsecond with rfl | rfl <;>
      decide
  have hformer : (app (.var "a") (.var "b")).injectAt 0 ⟨#[.void], 3⟩ =
      .error (.unboundVariable "a") ⟨#[.pack .app 0 1, .void, .void], 3⟩ := rfl
  obtain ⟨-, -, hunbound⟩ :=
    injectAt_rename (.app (.var "a") (.var "b")) _ hinj ⟨#[.void], 3⟩ 0
  have hopen : (app (.var "a") (.var "b")).Uses "b" ∧ ¬ (app (.var "a") (.var "b")).Binds "b" := by
    simp [Uses, Binds, nodes, boundNames]
  refine ⟨hinj, hformer, (hunbound "y" _).mpr ⟨⟨"a", hformer⟩, ⟨"b", hopen, rfl⟩, ?_⟩⟩
  intro old huse _
  rcases hnames old (.inl huse) with rfl | rfl <;> decide

end Tree

end InteractionGraph
