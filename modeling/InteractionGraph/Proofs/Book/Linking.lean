import InteractionGraph.Book.Basic
import InteractionGraph.Proofs.Tree.Nodes
import Mathlib.Data.List.Induction
import Mathlib.Data.List.Nodup

/-!
# Linking

Assembling a book goes over its definitions twice: the first time to number them, the second time to
put numbers in place of names.  What comes of it can be said without either pass.

The names that a term refers to are its `references`, in the order of the walk, and linking is
`Tree.withIds`, which puts an id at each of them and changes nothing else.  A walk that links either
gets to the end and leaves this term, or it stops at the first name without an id (`Links`).

`Book.assemble_outcome` puts the two passes together: when definitions make up a book, what the book
is then, and which error there is otherwise.  Repeated names come first, as no reference is looked
at before all names are numbered.
-/

namespace InteractionGraph

/-! ## Runs over lists that may fail -/

section

variable {ε α β : Type} {f : α → Except ε β} {result : α → β} {values : List α}

theorem mapM_of_ok (h : ∀ value ∈ values, f value = .ok (result value)) :
    values.mapM f = .ok (values.map result) := by
  induction values with
  | nil => rfl
  | cons value values ih =>
    obtain ⟨hvalue, hvalues⟩ := List.forall_mem_cons.mp h
    rw [List.mapM_cons, hvalue, ih hvalues]
    rfl

/-- A run ends with the error of the first value that fails. -/
theorem mapM_of_error {value : α} {error : ε}
    (hbefore : ∀ other ∈ values, f other = .ok (result other)) (h : f value = .error error)
    (after : List α) :
    (values ++ value :: after).mapM f = .error error := by
  rw [List.mapM_append, mapM_of_ok hbefore, List.mapM_cons, h]
  rfl

/-- Where not all values have a property, some value is the first without it. -/
theorem exists_first_not {p : α → Prop} (h : ¬ ∀ value ∈ values, p value) :
    ∃ before value after, values = before ++ value :: after ∧ (∀ other ∈ before, p other) ∧
      ¬ p value := by
  induction values with
  | nil => simp at h
  | cons value values ih =>
    by_cases hvalue : p value
    · have hrest : ¬ ∀ other ∈ values, p other := fun hall =>
        h (List.forall_mem_cons.mpr ⟨hvalue, hall⟩)
      obtain ⟨before, other, after, rfl, hbefore, hother⟩ := ih hrest
      exact ⟨value :: before, other, after, rfl, List.forall_mem_cons.mpr ⟨hvalue, hbefore⟩, hother⟩
    · exact ⟨[], value, values, rfl, by simp, hvalue⟩

end

/-! ## The references of a term -/

namespace Tree

/-- The name that a node refers to. -/
def referenceName? : Tree → Option String
  | .ref name _ => some name
  | _ => none

/-- The names that a term refers to, in the order in which a walk comes to them. -/
def references (tree : Tree) : List String := tree.nodes.filterMap referenceName?

mutual

/-- The term in which every reference has the id that goes with its name. -/
def withIds (id? : String → Option UInt32) : Tree → Tree
  | .era => .era
  | .lam name body => .lam name (body.withIds id?)
  | .app function argument => .app (function.withIds id?) (argument.withIds id?)
  | .sup label left right => .sup label (left.withIds id?) (right.withIds id?)
  | .dup label first second value body =>
    .dup label first second (value.withIds id?) (body.withIds id?)
  | .ref name _ => .ref name (id? name)
  | .var name => .var name
  | .ctr id fields => .ctr id (fieldsWithIds id? fields)
  | .mat scrutinee arms => .mat (scrutinee.withIds id?) (armsWithIds id? arms)
  | .op2 operator left right => .op2 operator (left.withIds id?) (right.withIds id?)
  | .u32 value => .u32 value

/-- The fields of a constructor in which every reference has the id that goes with its name. -/
def fieldsWithIds (id? : String → Option UInt32) : List Tree → List Tree
  | [] => []
  | field :: fields => field.withIds id? :: fieldsWithIds id? fields

/-- The arms of a match in which every reference has the id that goes with its name. -/
def armsWithIds (id? : String → Option UInt32) : List (UInt32 × Tree) → List (UInt32 × Tree)
  | [] => []
  | (id, body) :: arms => (id, body.withIds id?) :: armsWithIds id? arms

end

end Tree

/-! ## A walk that links -/

/-- A walk of the definition `owner` over `names` that links them: it stops at the first name
without an id, and leaves `linked` if there is none. -/
structure Links {α : Type} (id? : String → Option UInt32) (owner : String) (names : List String)
    (linked : α) (visit : Visit BookError Unit α) : Prop where
  failure? : visit.failure? =
    (names.find? fun name => (id? name).isNone).map (BookError.undefinedReference · owner)
  outcome : visit.failure? = none → visit.outcome = linked

namespace Links

variable {α β γ : Type} {id? : String → Option UInt32} {owner : String}
  {names others : List String} {linked : α} {visit : Visit BookError Unit α}

theorem nothing (value : α) : Links id? owner [] value ⟨value, none, ()⟩ := ⟨rfl, fun _ => rfl⟩

theorem map (h : Links id? owner names linked visit) (build : α → β) :
    Links id? owner names (build linked) (visit.map build) :=
  ⟨h.failure?, fun hnone => congrArg build (h.outcome hnone)⟩

/-- One walk after the other. -/
theorem andThen {second linkedSecond : β} {next : Unit → Visit BookError Unit β}
    (hfirst : Links id? owner names linked visit)
    (hnext : ∀ state, Links id? owner others linkedSecond (next state)) (build : α → β → γ) :
    Links id? owner (names ++ others) (build linked linkedSecond)
      (visit.andThen build second next) := by
  unfold Visit.andThen
  cases hfailure : visit.failure? with
  | some error =>
    have hfound := hfirst.failure?
    rw [hfailure] at hfound
    refine ⟨?_, nofun⟩
    rw [List.find?_append, Option.map_or, ← hfound]
    rfl
  | none =>
    have hfound := hfirst.failure?
    rw [hfailure, eq_comm, Option.map_eq_none_iff] at hfound
    refine ⟨?_, ?_⟩
    · rw [List.find?_append, hfound]
      exact (hnext visit.state).failure?
    · intro hnone
      have hlast := (hnext visit.state).outcome hnone
      simp only [Visit.map, hlast, hfirst.outcome hfailure]

end Links

namespace Tree

theorem links_linkReference {ids : Std.TreeMap String UInt32} {owner name : String}
    {id? : Option UInt32} :
    Links (ids[·]?) owner [name] (ids[name]?) (Book.linkReference ids owner name id? ()) := by
  unfold Book.linkReference
  cases hid : ids[name]? with
  | some id => exact ⟨by simp [hid], fun _ => rfl⟩
  | none => exact ⟨by simp [hid], nofun⟩

mutual

/-- A walk links the references of a term, in their order. -/
theorem links_visitReferences (ids : Std.TreeMap String UInt32) (owner : String) (tree : Tree) :
    Links (ids[·]?) owner tree.references (tree.withIds (ids[·]?))
      (tree.visitReferences (Book.linkReference ids owner) ()) := by
  cases tree with
  | era | var name | u32 value => exact .nothing _
  | ref name id? => exact links_linkReference.map _
  | lam name body => exact (links_visitReferences ids owner body).map _
  | app first second | sup label first second | op2 operator first second =>
    simp only [references, nodes, List.filterMap_cons, referenceName?, List.filterMap_append]
    exact (links_visitReferences ids owner first).andThen
      (fun _ => links_visitReferences ids owner second) _
  | dup label first second value body =>
    simp only [references, nodes, List.filterMap_cons, referenceName?, List.filterMap_append]
    exact (links_visitReferences ids owner value).andThen
      (fun _ => links_visitReferences ids owner body) _
  | ctr id fields => exact (links_visitFields ids owner fields).map _
  | mat scrutinee arms =>
    simp only [references, nodes, List.filterMap_cons, referenceName?, List.filterMap_append]
    exact (links_visitReferences ids owner scrutinee).andThen
      (fun _ => links_visitArms ids owner arms) _

theorem links_visitFields (ids : Std.TreeMap String UInt32) (owner : String)
    (fields : List Tree) :
    Links (ids[·]?) owner ((nodesOfFields fields).filterMap referenceName?)
      (fieldsWithIds (ids[·]?) fields) (visitFields (Book.linkReference ids owner) fields ()) := by
  cases fields with
  | nil => exact .nothing _
  | cons field fields =>
    simp only [nodesOfFields, List.filterMap_append]
    exact (links_visitReferences ids owner field).andThen
      (fun _ => links_visitFields ids owner fields) _

theorem links_visitArms (ids : Std.TreeMap String UInt32) (owner : String)
    (arms : List (UInt32 × Tree)) :
    Links (ids[·]?) owner ((nodesOfArms arms).filterMap referenceName?)
      (armsWithIds (ids[·]?) arms) (visitArms (Book.linkReference ids owner) arms ()) := by
  cases arms with
  | nil => exact .nothing _
  | cons arm arms =>
    obtain ⟨id, body⟩ := arm
    simp only [nodesOfArms, List.filterMap_append]
    exact (links_visitReferences ids owner body).andThen
      (fun _ => links_visitArms ids owner arms) fun body arms => (id, body) :: arms

end

end Tree

namespace Book

/-! ## Linking a definition -/

variable {ids : Std.TreeMap String UInt32} {definition : String × Tree}

theorem isNone_getElem?_iff {name : String} : ids[name]?.isNone = true ↔ name ∉ ids := by
  rw [Std.TreeMap.mem_iff_isSome_getElem?]
  cases ids[name]? <;> simp

theorem link_of_forall (h : ∀ name ∈ definition.2.references, name ∈ ids) :
    link ids definition = .ok (definition.1, definition.2.withIds (ids[·]?)) := by
  have hlinks := definition.2.links_visitReferences ids definition.1
  have hnone : definition.2.references.find? (fun name => ids[name]?.isNone) = none := by
    simpa only [List.find?_eq_none, isNone_getElem?_iff, not_not] using h
  have hfailure := hlinks.failure?
  rw [hnone, Option.map_none] at hfailure
  simp only [link, hfailure, hlinks.outcome hfailure]

/-- The first name without an id is the one that is reported. -/
theorem link_of_missing {front back : List String} {name : String}
    (hreferences : definition.2.references = front ++ name :: back)
    (hfront : ∀ other ∈ front, other ∈ ids) (hname : name ∉ ids) :
    link ids definition = .error (.undefinedReference name definition.1) := by
  have hlinks := definition.2.links_visitReferences ids definition.1
  have hfind : definition.2.references.find? (fun name => ids[name]?.isNone) = some name := by
    have hnone : front.find? (fun name => ids[name]?.isNone) = none := by
      simpa only [List.find?_eq_none, isNone_getElem?_iff, not_not] using hfront
    rw [hreferences, List.find?_append, hnone, Option.none_or]
    exact List.find?_cons_of_pos (isNone_getElem?_iff.mpr hname)
  have hfailure := hlinks.failure?
  rw [hfind, Option.map_some] at hfailure
  simp only [link, hfailure]

/-! ## Numbering -/

/-- The names of some definitions, in their order. -/
def names (definitions : List (String × Tree)) : List String := definitions.map Prod.fst

theorem number_cons_of_new {next : Nat} {definitions : List (String × Tree)}
    (h : definition.1 ∉ ids) :
    number ids next (definition :: definitions) =
      number (ids.insert definition.1 (UInt32.ofNat next)) (next + 1) definitions := by
  obtain ⟨name, tree⟩ := definition
  rw [number, if_neg (by simpa using h)]

theorem mem_insert_iff {name other : String} {id : UInt32} :
    other ∈ ids.insert name id ↔ name = other ∨ other ∈ ids := by
  rw [Std.TreeMap.mem_insert, Std.LawfulEqCmp.compare_eq_iff_eq]

/-- Names that are new and different stay new when another one gets its number. -/
theorem forall_notMem_insert {others : List String} {id : UInt32}
    (hnot : definition.1 ∉ others) (hnew : ∀ name ∈ others, name ∉ ids) :
    ∀ name ∈ others, name ∉ ids.insert definition.1 id := by
  intro name hname hinserted
  rcases mem_insert_iff.mp hinserted with rfl | hknown
  · exact hnot hname
  · exact hnew name hname hknown

/-- Names that are new and different are numbered in their order. -/
theorem number_of_nodup {definitions : List (String × Tree)}
    (hnodup : (names definitions).Nodup) (hnew : ∀ name ∈ names definitions, name ∉ ids)
    (next : Nat) :
    ∃ ids', number ids next definitions = .ok ids' ∧
      (∀ place name, (names definitions)[place]? = some name →
        ids'[name]? = some (UInt32.ofNat (next + place))) ∧
      ∀ name ∉ names definitions, ids'[name]? = ids[name]? := by
  induction definitions generalizing ids next with
  | nil => exact ⟨ids, rfl, by simp [names], fun _ _ => rfl⟩
  | cons definition definitions ih =>
    obtain ⟨hnot, hrest⟩ := List.nodup_cons.mp hnodup
    obtain ⟨hfirst, hothers⟩ := List.forall_mem_cons.mp hnew
    obtain ⟨ids', hnumber, hplaces, hkept⟩ :=
      ih hrest (forall_notMem_insert hnot hothers) (next + 1)
    refine ⟨ids', (number_cons_of_new hfirst).trans hnumber, ?_, ?_⟩
    · intro place name hname
      cases place with
      | zero =>
        cases hname
        rw [hkept definition.1 hnot]
        exact Std.TreeMap.getElem?_insert_self
      | succ place =>
        rw [hplaces place name hname]
        congr 2
        omega
    · intro name hname
      obtain ⟨hne, hname⟩ := not_or.mp (List.mem_cons.not.mp hname)
      rw [hkept name hname, Std.TreeMap.getElem?_insert, if_neg]
      simpa using Ne.symm hne

/-- A name that is known already ends the numbering. -/
theorem number_of_known {name : String} {tree : Tree} {before : List (String × Tree)}
    (hnodup : (names before).Nodup) (hnew : ∀ other ∈ names before, other ∉ ids)
    (hname : name ∈ ids ∨ name ∈ names before) (after : List (String × Tree)) (next : Nat) :
    number ids next (before ++ (name, tree) :: after) = .error (.duplicateDefinition name) := by
  induction before generalizing ids next with
  | nil =>
    have hknown : name ∈ ids := hname.resolve_right (List.not_mem_nil)
    rw [List.nil_append, number, if_pos (by simpa using hknown)]
  | cons definition before ih =>
    obtain ⟨hnot, hrest⟩ := List.nodup_cons.mp hnodup
    obtain ⟨hfirst, hothers⟩ := List.forall_mem_cons.mp hnew
    rw [List.cons_append, number_cons_of_new hfirst]
    refine ih hrest (forall_notMem_insert hnot hothers) ?_ (next + 1)
    rw [mem_insert_iff]
    rcases hname with hknown | hmem
    · exact .inl (.inr hknown)
    · rcases List.mem_cons.mp hmem with heq | hmem
      · exact .inl (.inl heq.symm)
      · exact .inr hmem

/-! ## The three outcomes -/

/-- The name is the first that some definition repeats. -/
def FirstRepeated (definitions : List (String × Tree)) (name : String) : Prop :=
  ∃ before tree after, definitions = before ++ (name, tree) :: after ∧ (names before).Nodup ∧
    name ∈ names before

/-- The definition `owner` is the first that refers to a name which is not defined, and this is the
first such name in it. -/
def FirstUndefined (definitions : List (String × Tree)) (owner name : String) : Prop :=
  ∃ before tree after, definitions = before ++ (owner, tree) :: after ∧
    (∀ definition ∈ before, ∀ other ∈ definition.2.references, other ∈ names definitions) ∧
    ∃ front back, tree.references = front ++ name :: back ∧
      (∀ other ∈ front, other ∈ names definitions) ∧ name ∉ names definitions

/-- Every name that a definition refers to is defined. -/
def Defined (definitions : List (String × Tree)) : Prop :=
  ∀ definition ∈ definitions, ∀ name ∈ definition.2.references, name ∈ names definitions

/-- The book has the definitions in their order, each at the place that is its id, and each with
the ids of the names that it refers to. -/
structure IsBookOf (definitions : List (String × Tree)) (constructors : ConstructorTable)
    (book : Book) : Prop where
  size : book.size = definitions.length
  name? : ∀ id, book.name? id = (names definitions)[id.toNat]?
  id? : ∀ name id, book.id? name = some id ↔ book.name? id = some name
  tree? : ∀ id, book.tree? id =
    definitions[id.toNat]?.map fun definition => definition.2.withIds book.id?
  constructors : book.constructors = constructors

variable {definitions : List (String × Tree)} {constructors : ConstructorTable}

theorem FirstRepeated.not_nodup {name : String} (h : FirstRepeated definitions name) :
    ¬ (names definitions).Nodup := by
  obtain ⟨before, tree, after, rfl, -, hname⟩ := h
  intro hnodup
  rw [names, List.map_append] at hnodup
  exact List.disjoint_of_nodup_append hnodup hname List.mem_cons_self

theorem FirstUndefined.not_defined {owner name : String}
    (h : FirstUndefined definitions owner name) : ¬ Defined definitions := by
  obtain ⟨before, tree, after, hsplit, -, front, back, hreferences, -, hname⟩ := h
  intro hdefined
  refine hname (hdefined (owner, tree) ?_ name ?_)
  · rw [hsplit]
    exact List.mem_append_right before List.mem_cons_self
  · rw [hreferences]
    exact List.mem_append_right front List.mem_cons_self

theorem exists_firstRepeated (h : ¬ (names definitions).Nodup) :
    ∃ name, FirstRepeated definitions name := by
  induction definitions using List.reverseRecOn with
  | nil => exact absurd List.nodup_nil h
  | append_singleton definitions definition ih =>
    by_cases hnodup : (names definitions).Nodup
    · have hname : definition.1 ∈ names definitions := by
        by_contra hnot
        refine h ?_
        rw [names, List.map_append]
        exact hnodup.append (List.nodup_singleton _) (by simpa using hnot)
      exact ⟨definition.1, definitions, definition.2, [], rfl, hnodup, hname⟩
    · obtain ⟨name, before, tree, after, hsplit, hfirst⟩ := ih hnodup
      refine ⟨name, before, tree, after ++ [definition], ?_, hfirst⟩
      rw [hsplit, List.append_assoc, List.cons_append]

theorem exists_firstUndefined (h : ¬ Defined definitions) :
    ∃ owner name, FirstUndefined definitions owner name := by
  obtain ⟨before, definition, after, hsplit, hbefore, hnot⟩ := exists_first_not h
  obtain ⟨front, name, back, hreferences, hfront, hname⟩ := exists_first_not hnot
  exact ⟨definition.1, name, before, definition.2, after, hsplit, hbefore, front, back, hreferences,
    hfront, hname⟩

theorem assemble_of_firstRepeated {name : String} (constructors : ConstructorTable)
    (h : FirstRepeated definitions name) :
    assemble definitions constructors = .error (.duplicateDefinition name) := by
  obtain ⟨before, tree, after, rfl, hnodup, hname⟩ := h
  have hnumber : number ∅ 0 (before ++ (name, tree) :: after) =
      .error (.duplicateDefinition name) :=
    number_of_known hnodup (fun _ _ => Std.TreeMap.not_mem_emptyc) (.inr hname) after 0
  unfold assemble
  rw [hnumber]
  rfl

/-- The numbers of different names are their places. -/
theorem exists_number (hnodup : (names definitions).Nodup) :
    ∃ ids, number ∅ 0 definitions = .ok ids ∧
      (∀ place name, (names definitions)[place]? = some name →
        ids[name]? = some (UInt32.ofNat place)) ∧
      ∀ name, name ∈ ids ↔ name ∈ names definitions := by
  obtain ⟨ids, hnumber, hplaces, hothers⟩ :=
    number_of_nodup hnodup (fun _ _ => Std.TreeMap.not_mem_emptyc) 0
  simp only [Nat.zero_add] at hplaces
  refine ⟨ids, hnumber, hplaces, ?_⟩
  intro name
  rw [Std.TreeMap.mem_iff_isSome_getElem?]
  constructor
  · intro hsome
    by_contra hnot
    rw [hothers name hnot] at hsome
    simp at hsome
  · intro hname
    obtain ⟨place, hplace⟩ := List.mem_iff_getElem?.mp hname
    rw [hplaces place name hplace]
    rfl

theorem assemble_of_firstUndefined {owner name : String} (constructors : ConstructorTable)
    (hnodup : (names definitions).Nodup) (h : FirstUndefined definitions owner name) :
    assemble definitions constructors = .error (.undefinedReference name owner) := by
  obtain ⟨ids, hnumber, _, hmem⟩ := exists_number hnodup
  obtain ⟨before, tree, after, hsplit, hbefore, front, back, hreferences, hfront, hname⟩ := h
  simp only [← hmem] at hbefore hfront hname
  have hlinked : ∀ definition ∈ before,
      link ids definition = .ok (definition.1, definition.2.withIds (ids[·]?)) :=
    fun definition hdefinition => link_of_forall (hbefore definition hdefinition)
  have hlink : link ids (owner, tree) = .error (.undefinedReference name owner) :=
    link_of_missing hreferences hfront hname
  have hrun : definitions.mapM (link ids) = .error (.undefinedReference name owner) := by
    rw [hsplit]
    exact mapM_of_error hlinked hlink after
  simp only [assemble, hnumber, bind, Except.bind, hrun]

/-- The book of definitions whose names have the given ids. -/
def withIds (ids : Std.TreeMap String UInt32) (definitions : List (String × Tree))
    (constructors : ConstructorTable) : Book :=
  ⟨(definitions.map fun definition => (definition.1, definition.2.withIds (ids[·]?))).toArray, ids,
    constructors⟩

theorem name?_withIds (id : UInt32) :
    (withIds ids definitions constructors).name? id = (names definitions)[id.toNat]? := by
  simp [withIds, Book.name?, names, Function.comp_def]

theorem tree?_withIds (id : UInt32) :
    (withIds ids definitions constructors).tree? id =
      definitions[id.toNat]?.map fun definition => definition.2.withIds (ids[·]?) := by
  simp [withIds, Book.tree?, Function.comp_def]

/-- Definitions whose ids are their places make up a book. -/
theorem isBookOf_withIds (hcount : definitions.length < 2 ^ 32)
    (hplaces : ∀ place name, (names definitions)[place]? = some name →
      ids[name]? = some (UInt32.ofNat place))
    (hmem : ∀ name, name ∈ ids ↔ name ∈ names definitions) :
    IsBookOf definitions constructors (withIds ids definitions constructors) where
  size := by simp [withIds, size]
  name? := name?_withIds
  id? := by
    intro name id
    rw [name?_withIds]
    change ids[name]? = some id ↔ _
    constructor
    · intro hid
      have hdefined : name ∈ names definitions := by
        rw [← hmem, Std.TreeMap.mem_iff_isSome_getElem?, hid]
        rfl
      obtain ⟨place, hplace⟩ := List.mem_iff_getElem?.mp hdefined
      obtain ⟨hlt, _⟩ := List.getElem?_eq_some_iff.mp hplace
      have hsize : place < UInt32.size := by
        rw [names, List.length_map] at hlt
        exact Nat.lt_trans hlt hcount
      rw [hplaces place name hplace, Option.some.injEq] at hid
      rw [← hid, UInt32.toNat_ofNat_of_lt' hsize, hplace]
    · intro hplace
      rw [hplaces id.toNat name hplace, UInt32.ofNat_toNat]
  tree? := tree?_withIds
  constructors := rfl

/-- Definitions with different names that refer to no others make up a book, in which the ids of the
names are their places. -/
theorem exists_assemble_eq (constructors : ConstructorTable) (hnodup : (names definitions).Nodup)
    (hdefined : Defined definitions) :
    ∃ ids, assemble definitions constructors = .ok (withIds ids definitions constructors) ∧
      (∀ place name, (names definitions)[place]? = some name →
        ids[name]? = some (UInt32.ofNat place)) ∧
      ∀ name, name ∈ ids ↔ name ∈ names definitions := by
  obtain ⟨ids, hnumber, hplaces, hmem⟩ := exists_number hnodup
  have hlinked : ∀ definition ∈ definitions,
      link ids definition = .ok (definition.1, definition.2.withIds (ids[·]?)) := by
    intro definition hdefinition
    have hreferences := hdefined definition hdefinition
    exact link_of_forall fun name hname => (hmem name).mpr (hreferences name hname)
  have hrun := mapM_of_ok hlinked
  refine ⟨ids, ?_, hplaces, hmem⟩
  simp only [assemble, hnumber, bind, Except.bind, hrun]
  rfl

theorem assemble_of_defined (constructors : ConstructorTable) (hcount : definitions.length < 2 ^ 32)
    (hnodup : (names definitions).Nodup) (hdefined : Defined definitions) :
    ∃ book, assemble definitions constructors = .ok book ∧
      IsBookOf definitions constructors book := by
  obtain ⟨ids, hassemble, hplaces, hmem⟩ := exists_assemble_eq constructors hnodup hdefined
  exact ⟨_, hassemble, isBookOf_withIds hcount hplaces hmem⟩

/-- There is no book without these two properties. -/
theorem nodup_and_defined_of_assemble {book : Book}
    (h : assemble definitions constructors = .ok book) :
    (names definitions).Nodup ∧ Defined definitions := by
  have hnodup : (names definitions).Nodup := by
    by_contra hnot
    obtain ⟨name, hfirst⟩ := exists_firstRepeated hnot
    rw [assemble_of_firstRepeated constructors hfirst] at h
    cases h
  refine ⟨hnodup, ?_⟩
  by_contra hnot
  obtain ⟨owner, name, hfirst⟩ := exists_firstUndefined hnot
  rw [assemble_of_firstUndefined constructors hnodup hfirst] at h
  cases h

/-! ## The outcome -/

/-- Definitions make up a book exactly when their names are different and every name that they
refer to is one of them.  The ids of the names are their places then, each reference carries the id
of its definition, and nothing else is changed.  Otherwise the error is about the first name that is
repeated; and if no name is, about the first that is not defined and the definition that refers to
it. -/
theorem assemble_outcome (definitions : List (String × Tree)) (constructors : ConstructorTable)
    (hcount : definitions.length < 2 ^ 32) :
    ((∃ book, assemble definitions constructors = .ok book) ↔
      (names definitions).Nodup ∧ Defined definitions) ∧
    (∀ book, assemble definitions constructors = .ok book →
      IsBookOf definitions constructors book) ∧
    ∀ error, assemble definitions constructors = .error error ↔
      (∃ name, FirstRepeated definitions name ∧ error = .duplicateDefinition name) ∨
        (names definitions).Nodup ∧
          ∃ owner name, FirstUndefined definitions owner name ∧
            error = .undefinedReference name owner := by
  by_cases hnodup : (names definitions).Nodup
  · by_cases hdefined : Defined definitions
    · obtain ⟨book, hbook, hisBook⟩ := assemble_of_defined constructors hcount
        hnodup hdefined
      rw [hbook]
      refine ⟨⟨fun _ => ⟨hnodup, hdefined⟩, fun _ => ⟨book, rfl⟩⟩, ?_, ?_⟩
      · rintro _ ⟨⟩
        exact hisBook
      · intro error
        refine ⟨nofun, ?_⟩
        rintro (⟨name, hfirst, -⟩ | ⟨-, owner, name, hfirst, -⟩)
        · exact absurd hnodup hfirst.not_nodup
        · exact absurd hdefined hfirst.not_defined
    · obtain ⟨owner, name, hfirst⟩ := exists_firstUndefined hdefined
      rw [assemble_of_firstUndefined constructors hnodup hfirst]
      refine ⟨⟨nofun, fun h => absurd h.2 hdefined⟩, nofun, ?_⟩
      intro error
      constructor
      · rintro ⟨⟩
        exact .inr ⟨hnodup, owner, name, hfirst, rfl⟩
      · rintro (⟨other, hother, -⟩ | ⟨-, otherOwner, other, hother, rfl⟩)
        · exact absurd hnodup hother.not_nodup
        · exact (assemble_of_firstUndefined constructors hnodup hfirst).symm.trans
            (assemble_of_firstUndefined constructors hnodup hother)
  · obtain ⟨name, hfirst⟩ := exists_firstRepeated hnodup
    rw [assemble_of_firstRepeated constructors hfirst]
    refine ⟨⟨nofun, fun h => absurd h.1 hnodup⟩, nofun, ?_⟩
    intro error
    constructor
    · rintro ⟨⟩
      exact .inl ⟨name, hfirst, rfl⟩
    · rintro (⟨other, hother, rfl⟩ | ⟨hother, -⟩)
      · exact (assemble_of_firstRepeated constructors hfirst).symm.trans
          (assemble_of_firstRepeated constructors hother)
      · exact absurd hother hnodup

/-- Two definitions that refer to each other, the second with an id that is not the first's. -/
theorem assemble_outcome_mutual :
    (∃ book, assemble [("f", .ref "g" none), ("g", .lam "x" (.ref "f" (some 7)))] .empty =
        .ok book) ∧
      ∀ book, assemble [("f", .ref "g" none), ("g", .lam "x" (.ref "f" (some 7)))] .empty =
        .ok book →
        IsBookOf [("f", .ref "g" none), ("g", .lam "x" (.ref "f" (some 7)))] .empty book := by
  obtain ⟨hok, hbook, -⟩ :=
    assemble_outcome [("f", .ref "g" none), ("g", .lam "x" (.ref "f" (some 7)))] .empty (by decide)
  have hnodup : (names [("f", .ref "g" none), ("g", .lam "x" (.ref "f" (some 7)))]).Nodup := by
    decide
  have hdefined : Defined [("f", .ref "g" none), ("g", .lam "x" (.ref "f" (some 7)))] := by
    simp [Defined, names, Tree.references, Tree.nodes, Tree.referenceName?]
  exact ⟨hok.mpr ⟨hnodup, hdefined⟩, hbook⟩

end Book

end InteractionGraph
