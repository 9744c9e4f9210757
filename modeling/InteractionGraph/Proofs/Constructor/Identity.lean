import InteractionGraph.Constructor.Table
import InteractionGraph.Word.Basic
import Mathlib.Algebra.Ring.Nat
import Mathlib.Data.Finset.Card
import Mathlib.Data.List.Induction
import Mathlib.Data.List.Nodup

/-!
# The identity of constructors

A data block numbers its constructors from the number of names known before it.  The id of a name
is thus a count of names plus a position, and the two go apart as soon as a name is declared again:
a position is used and no name is added.  A later block starts that much too low, and its first ids
may be taken.

`ConstructorTable.identity` says which id a name has, which name goes with an id, and that ids meet
in no other way than this one.  It goes by the blocks that were merged, not by the tables between.
-/

namespace InteractionGraph

/-- Where a list with one more element at its end has an element, that is this one or it is in the
list before. -/
theorem append_singleton_eq_append_cons_iff {α : Type} {values front back : List α}
    {last value : α} :
    values ++ [last] = front ++ value :: back ↔
      (values = front ∧ last = value ∧ back = []) ∨
        ∃ rest, values = front ++ value :: rest ∧ back = rest ++ [last] := by
  constructor
  · intro h
    rcases List.eq_nil_or_concat back with rfl | ⟨rest, other, rfl⟩
    · obtain ⟨hfront, hlast⟩ := List.append_inj' h rfl
      exact .inl ⟨hfront, List.singleton_inj.mp hlast, rfl⟩
    · rw [List.concat_eq_append, ← List.cons_append, ← List.append_assoc] at h
      obtain ⟨hvalues, hlast⟩ := List.append_inj' h rfl
      rw [List.singleton_inj.mp hlast]
      exact .inr ⟨rest, hvalues, List.concat_eq_append⟩
  · rintro (⟨rfl, rfl, rfl⟩ | ⟨rest, rfl, rfl⟩) <;> simp

/-- Two values in a list are at one place, or one of them is behind the other. -/
theorem append_cons_eq_append_cons_cases {α : Type} {front back otherFront otherBack : List α}
    {value other : α} (h : front ++ value :: back = otherFront ++ other :: otherBack) :
    (front = otherFront ∧ value = other) ∨
      (∃ middle, otherFront = front ++ value :: middle ∧ back = middle ++ other :: otherBack) ∨
      ∃ middle, front = otherFront ++ other :: middle ∧ otherBack = middle ++ value :: back := by
  rcases List.append_eq_append_iff.mp h with ⟨middle, rfl, hrest⟩ | ⟨middle, rfl, hrest⟩
  · cases middle with
    | nil => exact .inl ⟨(List.append_nil _).symm, (List.cons_eq_cons.mp hrest).1⟩
    | cons head middle =>
      obtain ⟨rfl, rfl⟩ := List.cons_eq_cons.mp hrest
      exact .inr (.inl ⟨middle, rfl, rfl⟩)
  · cases middle with
    | nil => exact .inl ⟨List.append_nil _, (List.cons_eq_cons.mp hrest).1.symm⟩
    | cons head middle =>
      obtain ⟨rfl, rfl⟩ := List.cons_eq_cons.mp hrest
      exact .inr (.inr ⟨middle, rfl, rfl⟩)

/-- The names of the constructors of a block, in their order. -/
def DataBlock.constructorNames (block : DataBlock) : List String :=
  block.constructors.map ConstructorDeclaration.name

namespace ConstructorTable

/-- The names that some blocks declare, each as often as they do. -/
def declaredNames (blocks : List DataBlock) : List String :=
  blocks.flatMap DataBlock.constructorNames

/-- The number of different names that some blocks declare. -/
def nameCount (blocks : List DataBlock) : Nat := (declaredNames blocks).toFinset.card

/-- The block counts up to the id for the last declaration of the name, from the number `base`. -/
def CountsTo (base : Nat) (block : DataBlock) (name : String) (id : UInt32) : Prop :=
  ∃ front back, block.constructorNames = front ++ name :: back ∧ name ∉ back ∧
    id = UInt32.ofNat (base + front.length)

/-- After some blocks, the next one is the first to declare the name, and counts up to the id for
it from the number of names before. -/
def Introduces (before : List DataBlock) (block : DataBlock) (name : String) (id : UInt32) : Prop :=
  name ∉ declaredNames before ∧ CountsTo (nameCount before) block name id

/-- After some blocks, the next one declares a name that they do, or declares a name twice. -/
def Redeclares (before : List DataBlock) (block : DataBlock) : Prop :=
  ¬ (block.constructorNames.Nodup ∧
    ∀ name ∈ block.constructorNames, name ∉ declaredNames before)

/-- One of the blocks introduces the name with the id. -/
def HasId (blocks : List DataBlock) (name : String) (id : UInt32) : Prop :=
  ∃ before block after, blocks = before ++ block :: after ∧ Introduces before block name id

/-- The first name is declared by a block before any that declares the second. -/
def Precedes (blocks : List DataBlock) (first second : String) : Prop :=
  ∃ before after, blocks = before ++ after ∧ first ∈ declaredNames before ∧
    second ∉ declaredNames before

/-! ## Names -/

variable {blocks before after : List DataBlock} {block : DataBlock} {name other : String}
  {id : UInt32} {base : Nat}

theorem declaredNames_append :
    declaredNames (before ++ after) = declaredNames before ++ declaredNames after :=
  List.flatMap_append

theorem declaredNames_singleton : declaredNames [block] = block.constructorNames :=
  List.flatMap_singleton _ _

theorem CountsTo.mem (h : CountsTo base block name id) : name ∈ block.constructorNames := by
  obtain ⟨front, back, hnames, -, -⟩ := h
  rw [hnames]
  exact List.mem_append_right front List.mem_cons_self

theorem exists_countsTo (base : Nat) (h : name ∈ block.constructorNames) :
    ∃ id, CountsTo base block name id := by
  obtain ⟨back, front, hreverse, hback⟩ :=
    List.eq_append_cons_of_mem (List.mem_reverse.mpr h)
  have hnames : block.constructorNames = front.reverse ++ name :: back.reverse := by
    rw [← List.reverse_reverse block.constructorNames, hreverse]
    simp
  exact ⟨_, front.reverse, back.reverse, hnames, by simpa using hback, rfl⟩

theorem HasId.mem (h : HasId blocks name id) : name ∈ declaredNames blocks := by
  obtain ⟨before, block, after, rfl, -, hcounts⟩ := h
  rw [declaredNames_append]
  exact List.mem_append_right _ (List.mem_append_left _ hcounts.mem)

theorem hasId_append_singleton : HasId (before ++ [block]) name id ↔
    HasId before name id ∨ Introduces before block name id := by
  constructor
  · rintro ⟨front, middle, back, hsplit, hintroduces⟩
    rcases append_singleton_eq_append_cons_iff.mp hsplit with ⟨rfl, rfl, -⟩ | ⟨back, rfl, -⟩
    · exact .inr hintroduces
    · exact .inl ⟨front, middle, back, rfl, hintroduces⟩
  · rintro (⟨front, middle, back, rfl, hintroduces⟩ | hintroduces)
    · exact ⟨front, middle, back ++ [block], by simp, hintroduces⟩
    · exact ⟨before, block, [], rfl, hintroduces⟩

theorem exists_hasId (h : name ∈ declaredNames blocks) : ∃ id, HasId blocks name id := by
  induction blocks using List.reverseRecOn with
  | nil => simp [declaredNames] at h
  | append_singleton before block ih =>
    by_cases hbefore : name ∈ declaredNames before
    · obtain ⟨id, hid⟩ := ih hbefore
      exact ⟨id, hasId_append_singleton.mpr (.inl hid)⟩
    · rw [declaredNames_append, declaredNames_singleton, List.mem_append] at h
      obtain ⟨id, hid⟩ := exists_countsTo (nameCount before) (h.resolve_left hbefore)
      exact ⟨id, hasId_append_singleton.mpr (.inr ⟨hbefore, hid⟩)⟩

theorem Precedes.mem (h : Precedes blocks other name) : other ∈ declaredNames blocks := by
  obtain ⟨before, after, rfl, hother, -⟩ := h
  rw [declaredNames_append]
  exact List.mem_append_left _ hother

theorem precedes_of_mem (hother : other ∈ declaredNames before)
    (hname : name ∉ declaredNames before) (after : List DataBlock) :
    Precedes (before ++ after) other name :=
  ⟨before, after, rfl, hother, hname⟩

/-- One more block puts no name before one that is declared already. -/
theorem precedes_append_singleton (hname : name ∈ declaredNames before) :
    Precedes (before ++ [block]) other name ↔ Precedes before other name := by
  constructor
  · rintro ⟨front, back, hsplit, hother, hnot⟩
    rcases List.eq_nil_or_concat back with rfl | ⟨back, last, rfl⟩
    · rw [List.append_nil] at hsplit
      rw [← hsplit, declaredNames_append] at hnot
      exact absurd (List.mem_append_left _ hname) hnot
    · rw [List.concat_eq_append, ← List.append_assoc] at hsplit
      rw [(List.append_inj' hsplit rfl).1]
      exact precedes_of_mem hother hnot back
  · rintro ⟨front, back, rfl, hother, hnot⟩
    rw [List.append_assoc]
    exact precedes_of_mem hother hnot _

/-! ## Proposals -/

theorem proposals_append_singleton (base : Nat) (title : String)
    (declarations : List ConstructorDeclaration) (declaration : ConstructorDeclaration) :
    proposals base ⟨title, declarations ++ [declaration]⟩ =
      (proposals base ⟨title, declarations⟩).insert declaration.name
        (UInt32.ofNat (base + declarations.length)) := by
  simp [proposals, List.zipIdx_append]

/-- A block proposes the id up to which it counts. -/
theorem getElem?_proposals : (proposals base block)[name]? = some id ↔
    CountsTo base block name id := by
  obtain ⟨title, declarations⟩ := block
  induction declarations using List.reverseRecOn with
  | nil => simp [proposals, CountsTo, DataBlock.constructorNames]
  | append_singleton declarations declaration ih =>
    have hnames : DataBlock.constructorNames ⟨title, declarations ++ [declaration]⟩ =
        DataBlock.constructorNames ⟨title, declarations⟩ ++ [declaration.name] := List.map_append
    have hlength : (DataBlock.constructorNames ⟨title, declarations⟩).length =
        declarations.length := List.length_map _
    rw [proposals_append_singleton, Std.TreeMap.getElem?_insert]
    simp only [CountsTo, hnames, append_singleton_eq_append_cons_iff,
      Std.LawfulEqCmp.compare_eq_iff_eq]
    by_cases hname : declaration.name = name
    · rw [if_pos hname, Option.some.injEq]
      constructor
      · rintro rfl
        exact ⟨_, [], .inl ⟨rfl, hname, rfl⟩, List.not_mem_nil, by rw [hlength]⟩
      · rintro ⟨front, back, ⟨rfl, -, -⟩ | ⟨rest, -, rfl⟩, hback, rfl⟩
        · rw [hlength]
        · simp [hname] at hback
    · rw [if_neg hname, ih]
      constructor
      · rintro ⟨front, rest, hsplit, hrest, hid⟩
        refine ⟨front, _, .inr ⟨rest, hsplit, rfl⟩, ?_, hid⟩
        simpa [hrest] using Ne.symm hname
      · rintro ⟨front, back, ⟨-, h, -⟩ | ⟨rest, hsplit, rfl⟩, hback, hid⟩
        · exact absurd h hname
        · exact ⟨front, rest, hsplit, fun h => hback (List.mem_append_left _ h), hid⟩

/-! ## Merging -/

/-- The table after some declarations in a block. -/
def declareAll (title : String) (table : ConstructorTable) (entries : List (String × UInt32)) :
    ConstructorTable :=
  entries.foldl (fun table entry => (declare title table entry.1 entry.2).value) table

theorem declareAll_append_singleton (title : String) (table : ConstructorTable)
    (entries : List (String × UInt32)) (entry : String × UInt32) :
    declareAll title table (entries ++ [entry]) =
      (declare title (declareAll title table entries) entry.1 entry.2).value :=
  List.foldl_append

theorem merge_eq_declareAll (table : ConstructorTable) (block : DataBlock) :
    table.merge block =
      declareAll block.name table (proposals table.size block).toList := by
  suffices h : ∀ (entries : List (String × UInt32)) (table : ConstructorTable),
      (entries.foldlM (fun table (name, id) => declare block.name table name id) table).value =
        declareAll block.name table entries from h _ table
  intro entries
  induction entries with
  | nil => exact fun _ => rfl
  | cons entry entries ih => exact fun table => ih _

/-- The table after some declarations of which those of unknown names were entered. -/
structure Extends (entries : List (String × UInt32)) (former latter : ConstructorTable) :
    Prop where
  id? : ∀ name id, latter.id? name = some id ↔
    former.id? name = some id ∨ former.id? name = none ∧ (name, id) ∈ entries
  name? : ∀ id name, latter.name? id = some name ↔
    (former.id? name = none ∧ (name, id) ∈ entries) ∨
      former.name? id = some name ∧ ∀ other, (other, id) ∈ entries → former.id? other ≠ none

variable {table : ConstructorTable} {title : String} {entries : List (String × UInt32)}

theorem value_declare_of_known {known : UInt32} (h : table.id? name = some known) :
    (declare title table name id).value = table := by
  have hids : table.ids[name]? = some known := h
  simp only [declare, hids]
  rfl

theorem value_declare_of_unknown (h : table.id? name = none) :
    (declare title table name id).value =
      ⟨table.ids.insert name id, table.names.insert id name⟩ := by
  have hids : table.ids[name]? = none := h
  simp only [declare, hids]
  cases table.names[id]? <;> rfl

theorem id?_declare_of_ne (h : name ≠ other) :
    (declare title table name id).value.id? other = table.id? other := by
  cases hknown : table.id? name with
  | some known => rw [value_declare_of_known hknown]
  | none =>
    rw [value_declare_of_unknown hknown]
    change (table.ids.insert name id)[other]? = table.ids[other]?
    rw [Std.TreeMap.getElem?_insert, if_neg (by simpa using h)]

theorem id?_declare_of_known {known : UInt32} (h : table.id? name = some known) :
    (declare title table other id).value.id? name = some known := by
  by_cases hne : other = name
  · subst hne
    rwa [value_declare_of_known h]
  · rwa [id?_declare_of_ne hne]

namespace Extends

variable {former latter : ConstructorTable}

theorem ne_of_known {known : UInt32} (hknown : former.id? name = some known)
    (hnone : former.id? other = none) : other ≠ name := by
  rintro rfl
  rw [hnone] at hknown
  cases hknown

theorem of_known {known : UInt32} (h : Extends entries former latter)
    (hknown : former.id? name = some known) :
    Extends (entries ++ [(name, id)]) former latter where
  id? other place := by
    rw [h.id?]
    refine or_congr_right (and_congr_right fun hnone => ?_)
    simp [ne_of_known hknown hnone]
  name? place other := by
    rw [h.name?]
    refine or_congr (and_congr_right fun hnone => ?_) (and_congr_right fun _ => ?_)
    · simp [ne_of_known hknown hnone]
    · simp only [List.mem_append, List.mem_singleton, Prod.mk.injEq, or_imp, forall_and]
      refine ⟨fun hall => ⟨hall, ?_⟩, And.left⟩
      rintro _ ⟨rfl, -⟩
      rw [hknown]
      exact Option.some_ne_none known

theorem of_unknown (h : Extends entries former latter) (hunknown : former.id? name = none)
    (hname : name ∉ entries.map Prod.fst) (hid : id ∉ entries.map Prod.snd) :
    Extends (entries ++ [(name, id)]) former
      ⟨latter.ids.insert name id, latter.names.insert id name⟩ where
  id? other place := by
    change (latter.ids.insert name id)[other]? = some place ↔ _
    simp only [Std.TreeMap.getElem?_insert, Std.LawfulEqCmp.compare_eq_iff_eq]
    by_cases hother : name = other
    · subst hother
      have hnot : (name, place) ∉ entries := fun hmem => hname (List.mem_map_of_mem hmem)
      simp [hunknown, hnot, eq_comm]
    · rw [if_neg hother]
      refine (h.id? other place).trans ?_
      simp [Ne.symm hother]
  name? place other := by
    change (latter.names.insert id name)[place]? = some other ↔ _
    simp only [Std.TreeMap.getElem?_insert, Std.LawfulEqCmp.compare_eq_iff_eq]
    by_cases hplace : id = place
    · subst hplace
      have hnot : (other, id) ∉ entries := fun hmem => hid (List.mem_map_of_mem hmem)
      have htaken : ¬ ∀ other, (other, id) ∈ entries ++ [(name, id)] → former.id? other ≠ none :=
        fun hall => hall name (List.mem_append_right _ (List.mem_singleton_self _)) hunknown
      rw [if_pos rfl, Option.some.injEq, or_iff_left (fun h => htaken h.2)]
      constructor
      · rintro rfl
        exact ⟨hunknown, List.mem_append_right _ (List.mem_singleton_self _)⟩
      · rintro ⟨-, hmem⟩
        rcases List.mem_append.mp hmem with hmem | hmem
        · exact absurd hmem hnot
        · exact (Prod.mk.inj (List.mem_singleton.mp hmem)).1.symm
    · rw [if_neg hplace]
      refine (h.name? place other).trans ?_
      simp [Ne.symm hplace]

end Extends

/-- The declarations of different names with different ids are entered one by one. -/
theorem extends_declareAll (hnames : (entries.map Prod.fst).Nodup)
    (hids : (entries.map Prod.snd).Nodup) :
    Extends entries table (declareAll title table entries) := by
  induction entries using List.reverseRecOn with
  | nil => exact ⟨by simp [declareAll], by simp [declareAll]⟩
  | append_singleton entries entry ih =>
    obtain ⟨name, id⟩ := entry
    rw [List.map_append, List.nodup_append] at hnames hids
    obtain ⟨hnames, -, hname⟩ := hnames
    obtain ⟨hids, -, hid⟩ := hids
    have hnewName : name ∉ entries.map Prod.fst := fun hmem => hname _ hmem name (by simp) rfl
    have hnewId : id ∉ entries.map Prod.snd := fun hmem => hid _ hmem id (by simp) rfl
    have hextends := ih hnames hids
    rw [declareAll_append_singleton]
    cases hknown : table.id? name with
    | some known =>
      rw [value_declare_of_known ((hextends.id? name known).mpr (.inl hknown))]
      exact hextends.of_known hknown
    | none =>
      rw [value_declare_of_unknown]
      · exact hextends.of_unknown hknown hnewName hnewId
      · rw [Option.eq_none_iff_forall_ne_some]
        intro other hother
        rcases (hextends.id? name other).mp hother with hsome | ⟨-, hmem⟩
        · rw [hknown] at hsome
          cases hsome
        · exact hnewName (List.mem_map_of_mem hmem)

theorem mem_proposals :
    (name, id) ∈ (proposals base block).toList ↔ CountsTo base block name id := by
  rw [Std.TreeMap.mem_toList_iff_getElem?_eq_some, getElem?_proposals]

theorem CountsTo.toNat (h : CountsTo base block name id)
    (hcount : base + block.constructorNames.length ≤ 2 ^ 32) :
    ∃ front back, block.constructorNames = front ++ name :: back ∧
      id.toNat = base + front.length := by
  obtain ⟨front, back, hnames, -, rfl⟩ := h
  refine ⟨front, back, hnames, UInt32.toNat_ofNat_of_lt' ?_⟩
  rw [hnames, List.length_append, List.length_cons] at hcount
  change _ < 2 ^ 32
  omega

/-- No block counts up to an id for two names. -/
theorem CountsTo.name_unique (h : CountsTo base block name id)
    (hother : CountsTo base block other id)
    (hcount : base + block.constructorNames.length ≤ 2 ^ 32) : other = name := by
  obtain ⟨front, back, hnames, hid⟩ := h.toNat hcount
  obtain ⟨otherFront, otherBack, hothers, hotherId⟩ := hother.toNat hcount
  obtain ⟨-, hsame⟩ := List.append_inj (hothers.symm.trans hnames) (by omega)
  exact (List.cons_eq_cons.mp hsame).1

variable {table : ConstructorTable}

theorem nodup_proposals_names (base : Nat) (block : DataBlock) :
    ((proposals base block).toList.map Prod.fst).Nodup := by
  refine List.pairwise_map.mpr (Std.TreeMap.distinct_keys_toList.imp ?_)
  intro first second hne
  simpa using hne

theorem nodup_proposals_ids (hcount : base + block.constructorNames.length ≤ 2 ^ 32) :
    ((proposals base block).toList.map Prod.snd).Nodup := by
  have hdistinct : (proposals base block).toList.Nodup :=
    Std.TreeMap.distinct_keys_toList.imp fun hne heq => hne (by simp [heq])
  refine List.Nodup.map_on ?_ hdistinct
  intro first hfirst second hsecond hid
  have hcounts := mem_proposals.mp hsecond
  rw [← hid] at hcounts
  exact Prod.ext (hcounts.name_unique (mem_proposals.mp hfirst) hcount) hid

theorem extends_merge (hcount : table.size + block.constructorNames.length ≤ 2 ^ 32) :
    Extends (proposals table.size block).toList table (table.merge block) := by
  rw [merge_eq_declareAll]
  exact extends_declareAll (nodup_proposals_names _ _) (nodup_proposals_ids hcount)

/-! ## The table of some blocks -/

/-- The table gives the names of the blocks their ids, and goes by the last name of each id. -/
structure Identifies (blocks : List DataBlock) (table : ConstructorTable) : Prop where
  id? : ∀ name id, table.id? name = some id ↔ HasId blocks name id
  name? : ∀ id name, table.name? id = some name ↔
    HasId blocks name id ∧
      ∀ other, HasId blocks other id → other = name ∨ Precedes blocks other name

namespace Identifies

theorem id?_eq_none_iff (h : Identifies blocks table) :
    table.id? name = none ↔ name ∉ declaredNames blocks := by
  rw [Option.eq_none_iff_forall_ne_some]
  constructor
  · intro hnone hmem
    obtain ⟨id, hid⟩ := exists_hasId hmem
    exact hnone id ((h.id? name id).mpr hid)
  · intro hnot id hid
    exact hnot ((h.id? name id).mp hid).mem

theorem size (h : Identifies blocks table) : table.size = nameCount blocks := by
  have hkeys : table.ids.keys.toFinset = (declaredNames blocks).toFinset := by
    ext name
    rw [List.mem_toFinset, List.mem_toFinset, Std.TreeMap.mem_keys,
      Std.TreeMap.mem_iff_isSome_getElem?, ← not_iff_not, ← h.id?_eq_none_iff]
    simp [ConstructorTable.id?]
  have hnodup : table.ids.keys.Nodup :=
    Std.TreeMap.distinct_keys.imp fun hne heq => hne (by simp [heq])
  rw [nameCount, ← hkeys, List.toFinset_card_of_nodup hnodup, Std.TreeMap.length_keys]
  rfl

theorem merge (h : Identifies before table)
    (hcount : nameCount before + block.constructorNames.length ≤ 2 ^ 32) :
    Identifies (before ++ [block]) (table.merge block) := by
  have hextends : Extends (proposals table.size block).toList table (table.merge block) :=
    extends_merge (h.size.symm ▸ hcount)
  have hintroduces : ∀ name id, (table.id? name = none ∧
      (name, id) ∈ (proposals table.size block).toList) ↔ Introduces before block name id := by
    intro name id
    rw [h.id?_eq_none_iff, mem_proposals, h.size]
    rfl
  constructor
  · intro name id
    rw [hextends.id?, h.id?, hintroduces, hasId_append_singleton]
  · intro id name
    have hfree : (∀ other, (other, id) ∈ (proposals table.size block).toList →
        table.id? other ≠ none) ↔ ∀ other, ¬ Introduces before block other id := by
      simp only [← hintroduces, not_and', ne_eq]
    rw [hextends.name?, hintroduces, h.name?, hfree]
    simp only [hasId_append_singleton]
    constructor
    · rintro (hname | ⟨⟨hname, hlast⟩, hnone⟩)
      · refine ⟨.inr hname, ?_⟩
        rintro other (hother | hother)
        · exact .inr (precedes_of_mem hother.mem hname.1 [block])
        · exact .inl (hname.2.name_unique hother.2 hcount)
      · refine ⟨.inl hname, ?_⟩
        rintro other (hother | hother)
        · exact (hlast other hother).imp_right (precedes_append_singleton hname.mem).mpr
        · exact absurd hother (hnone other)
    · rintro ⟨hname | hname, hlast⟩
      · simp only [precedes_append_singleton hname.mem] at hlast
        refine .inr ⟨⟨hname, fun other hother => hlast other (.inl hother)⟩, ?_⟩
        intro other hother
        rcases hlast other (.inr hother) with rfl | hprecedes
        · exact hother.1 hname.mem
        · exact hother.1 hprecedes.mem
      · exact .inl hname

end Identifies

/-- The numbers up to which a block counts stay below that of all declarations. -/
theorem nameCount_add_length_le (before : List DataBlock) (block : DataBlock)
    (after : List DataBlock) : nameCount before + block.constructorNames.length ≤
      (declaredNames (before ++ block :: after)).length := by
  have hbefore : nameCount before ≤ (declaredNames before).length := List.toFinset_card_le _
  simp only [declaredNames, List.flatMap_append, List.flatMap_cons, List.length_append] at hbefore ⊢
  omega

/-- No block counts beyond the greatest id. -/
def IdsFit (blocks : List DataBlock) : Prop :=
  ∀ before block after, blocks = before ++ block :: after →
    nameCount before + block.constructorNames.length ≤ 2 ^ 32

theorem idsFit_of_length_le (hcount : (declaredNames blocks).length ≤ 2 ^ 32) :
    IdsFit blocks := by
  rintro before block after rfl
  exact (nameCount_add_length_le before block after).trans hcount

theorem IdsFit.of_append (h : IdsFit (before ++ after)) : IdsFit before := by
  rintro front block back rfl
  exact h front block (back ++ after) (by simp)

theorem identifies_of_idsFit (h : IdsFit blocks) : Identifies blocks (ofBlocks blocks) := by
  induction blocks using List.reverseRecOn with
  | nil => exact ⟨by simp [ofBlocks, empty, id?, HasId], by simp [ofBlocks, empty, name?, HasId]⟩
  | append_singleton before block ih =>
    rw [ofBlocks, List.foldl_append, ← ofBlocks]
    exact (ih h.of_append).merge (h before block [] rfl)

theorem identifies_ofBlocks (hcount : (declaredNames blocks).length ≤ 2 ^ 32) :
    Identifies blocks (ofBlocks blocks) :=
  identifies_of_idsFit (idsFit_of_length_le hcount)

/-! ## Ids that meet -/

/-- The block that introduces the first name with the id declares some name again, and the second
name comes after this block. -/
def Overlaps (blocks : List DataBlock) (first second : String) (id : UInt32) : Prop :=
  ∃ before block after, blocks = before ++ block :: after ∧ Introduces before block first id ∧
    Redeclares before block ∧ second ∉ declaredNames (before ++ [block])

theorem Overlaps.not_of_last {first second : String} (h : Overlaps blocks first second id)
    (hlast : ∀ before block after, blocks = before ++ block :: after → Redeclares before block →
      after = []) : second ∉ declaredNames blocks := by
  obtain ⟨before, block, after, hblocks, -, hredeclares, hsecond⟩ := h
  rw [hblocks, hlast before block after hblocks hredeclares]
  exact hsecond

/-- A block that declares no name again adds as many names as it has positions. -/
theorem nameCount_of_not_redeclares (h : ¬ Redeclares before block) :
    nameCount (before ++ [block]) = nameCount before + block.constructorNames.length := by
  obtain ⟨hnodup, hnew⟩ := not_not.mp h
  have hdisjoint : Disjoint (declaredNames before).toFinset block.constructorNames.toFinset := by
    rw [List.disjoint_toFinset_iff_disjoint]
    exact fun name hold hname => hnew name hname hold
  rw [nameCount, declaredNames_append, declaredNames_singleton, List.toFinset_append,
    Finset.card_union_of_disjoint hdisjoint, List.toFinset_card_of_nodup hnodup, nameCount]

theorem nameCount_mono (before after : List DataBlock) :
    nameCount before ≤ nameCount (before ++ after) := by
  refine Finset.card_le_card ?_
  rw [declaredNames_append, List.toFinset_append]
  exact Finset.subset_union_left

section

variable {later : DataBlock} {middle rest : List DataBlock} {first second : String}

/-- A block that leaves a later one too low a start declares some name again. -/
theorem redeclares_of_introduces (hfirst : Introduces before block first id)
    (hsecond : Introduces (before ++ block :: middle) later second id)
    (hcount : (declaredNames (before ++ block :: middle ++ later :: rest)).length ≤ 2 ^ 32) :
    Redeclares before block := by
  by_contra hnot
  have hlater := (nameCount_add_length_le (before ++ block :: middle) later rest).trans hcount
  have hmore : nameCount before + block.constructorNames.length ≤
      nameCount (before ++ block :: middle) := by
    rw [← nameCount_of_not_redeclares hnot, List.append_cons before block middle]
    exact nameCount_mono _ _
  obtain ⟨front, back, hsplit, hid⟩ := hfirst.2.toNat (by omega)
  obtain ⟨otherFront, -, -, hotherId⟩ := hsecond.2.toNat hlater
  rw [hsplit, List.length_append, List.length_cons] at hmore
  omega

theorem overlaps_of_introduces (hfirst : Introduces before block first id)
    (hsecond : Introduces (before ++ block :: middle) later second id)
    (hblocks : blocks = before ++ block :: middle ++ later :: rest)
    (hcount : (declaredNames blocks).length ≤ 2 ^ 32) : Overlaps blocks first second id := by
  subst hblocks
  refine ⟨before, block, middle ++ later :: rest, by simp, hfirst,
    redeclares_of_introduces hfirst hsecond hcount, ?_⟩
  intro hmem
  refine hsecond.1 ?_
  rw [List.append_cons before block middle, declaredNames_append]
  exact List.mem_append_left _ hmem

/-- Of two names with one id, the block of the earlier one declares some name again. -/
theorem overlaps_of_shared (hne : first ≠ second) (hfirst : HasId blocks first id)
    (hsecond : HasId blocks second id) (hcount : (declaredNames blocks).length ≤ 2 ^ 32) :
    Overlaps blocks first second id ∨ Overlaps blocks second first id := by
  obtain ⟨before, block, after, hblocks, hfirst⟩ := hfirst
  obtain ⟨otherBefore, otherBlock, otherAfter, hothers, hsecond⟩ := hsecond
  have hsame : ¬ (before = otherBefore ∧ block = otherBlock) := by
    rintro ⟨rfl, rfl⟩
    refine hne (hsecond.2.name_unique hfirst.2 ?_)
    rw [hblocks] at hcount
    exact (nameCount_add_length_le before block after).trans hcount
  rcases append_cons_eq_append_cons_cases (hblocks.symm.trans hothers) with
    heq | ⟨middle, rfl, rfl⟩ | ⟨middle, rfl, rfl⟩
  · exact absurd heq hsame
  · exact .inl (overlaps_of_introduces hfirst hsecond hothers hcount)
  · exact .inr (overlaps_of_introduces hsecond hfirst hblocks hcount)

end

/-! ## Words -/

/-- No word of a constructor, and no word at the head of an arm, goes with both ids. -/
def Distinguished (id other : UInt32) : Prop :=
  (∀ address otherAddress word, Word.encode? .ctr id.toNat address = some word →
    Word.encode? .ctr other.toNat otherAddress ≠ some word) ∧
  ∀ word, Word.encode? .w32 0 id.toNat = some word → Word.encode? .w32 0 other.toNat ≠ some word

/-- The fields of a word are those that it was made of. -/
theorem fields_of_encode? {tag : Tag} {label payload : Nat} {word : Word}
    (h : Word.encode? tag label payload = some word) :
    word.label = label ∧ word.payload = payload := by
  unfold Word.encode? at h
  split at h
  · rename_i hfits
    cases h
    rw [Word.pack, Word.label_ofFields, Word.payload_ofFields]
    exact ⟨Nat.mod_eq_of_lt hfits.1, Nat.mod_eq_of_lt hfits.2⟩
  · cases h

theorem distinguished_of_ne {id other : UInt32} (h : id ≠ other) : Distinguished id other := by
  constructor
  · intro address otherAddress word hword hother
    refine h (UInt32.toNat_inj.mp ?_)
    rw [← (fields_of_encode? hword).1, (fields_of_encode? hother).1]
  · intro word hword hother
    refine h (UInt32.toNat_inj.mp ?_)
    rw [← (fields_of_encode? hword).2, (fields_of_encode? hother).2]

/-! ## The identity of constructors -/

/-- The names that blocks declare are those with an id, and the id of a name is the number of names
before the block that introduces it plus its last position in this block.  Different names have the
same id only if the block of the earlier one declares some name again; the id then goes with the
name that comes last.  If no block but the last declares a name again, each declared name goes with
its id, and no other name has this id or a word that could be taken for one of it. -/
theorem identity (blocks : List DataBlock) (hcount : (declaredNames blocks).length ≤ 2 ^ 32) :
    (∀ name, (∃ id, (ofBlocks blocks).id? name = some id) ↔ name ∈ declaredNames blocks) ∧
    (∀ name id, (ofBlocks blocks).id? name = some id ↔ HasId blocks name id) ∧
    (∀ first second id, first ≠ second → (ofBlocks blocks).id? first = some id →
      (ofBlocks blocks).id? second = some id →
      Overlaps blocks first second id ∨ Overlaps blocks second first id) ∧
    (∀ id name, (ofBlocks blocks).name? id = some name ↔
      (ofBlocks blocks).id? name = some id ∧ ∀ other, (ofBlocks blocks).id? other = some id →
        other = name ∨ Precedes blocks other name) ∧
    ((∀ before block after, blocks = before ++ block :: after → Redeclares before block →
        after = []) →
      ∀ name ∈ declaredNames blocks, ∃ id, (ofBlocks blocks).id? name = some id ∧
        (ofBlocks blocks).name? id = some name ∧
        ∀ other otherId, other ≠ name → (ofBlocks blocks).id? other = some otherId →
          otherId ≠ id ∧ Distinguished id otherId) := by
  have hidentifies := identifies_ofBlocks hcount
  refine ⟨?_, hidentifies.id?, ?_, ?_, ?_⟩
  · simp only [hidentifies.id?]
    exact fun name => ⟨fun ⟨id, hid⟩ => hid.mem, exists_hasId⟩
  · simp only [hidentifies.id?]
    intro first second id hne hfirst hsecond
    exact overlaps_of_shared hne hfirst hsecond hcount
  · simpa only [hidentifies.id?] using hidentifies.name?
  · simp only [hidentifies.id?, hidentifies.name?]
    intro hlast name hname
    obtain ⟨id, hid⟩ := exists_hasId hname
    have hunique : ∀ other, HasId blocks other id → other = name := by
      intro other hother
      by_contra hne
      rcases overlaps_of_shared hne hother hid hcount with hoverlaps | hoverlaps
      · exact hoverlaps.not_of_last hlast hid.mem
      · exact hoverlaps.not_of_last hlast hother.mem
    refine ⟨id, hid, ⟨hid, fun other hother => .inl (hunique other hother)⟩, ?_⟩
    intro other otherId hne hother
    have hdifferent : otherId ≠ id := by
      rintro rfl
      exact hne (hunique other hother)
    exact ⟨hdifferent, distinguished_of_ne hdifferent.symm⟩

/-- The second block declares the name of the first again; its own name keeps its position. -/
theorem identity_last_redeclares :
    ∃ id, (ofBlocks [⟨"A", [⟨"X", []⟩]⟩, ⟨"B", [⟨"X", []⟩, ⟨"Y", []⟩]⟩]).id? "Y" = some id ∧
      (ofBlocks [⟨"A", [⟨"X", []⟩]⟩, ⟨"B", [⟨"X", []⟩, ⟨"Y", []⟩]⟩]).name? id = some "Y" ∧
      ∀ other otherId, other ≠ "Y" →
        (ofBlocks [⟨"A", [⟨"X", []⟩]⟩, ⟨"B", [⟨"X", []⟩, ⟨"Y", []⟩]⟩]).id? other = some otherId →
        otherId ≠ id ∧ Distinguished id otherId := by
  obtain ⟨-, -, -, -, hlast⟩ :=
    identity [⟨"A", [⟨"X", []⟩]⟩, ⟨"B", [⟨"X", []⟩, ⟨"Y", []⟩]⟩] (by decide)
  refine hlast ?_ "Y" (by decide)
  intro before block after hblocks hredeclares
  cases before with
  | nil =>
    obtain ⟨rfl, -⟩ := List.cons_eq_cons.mp hblocks
    exact absurd ⟨by decide, by simp [declaredNames]⟩ hredeclares
  | cons first before =>
    obtain ⟨-, hrest⟩ := List.cons_eq_cons.mp hblocks
    have hlength := congrArg List.length hrest
    simp at hlength
    exact List.eq_nil_of_length_eq_zero (by omega)

/-- A block that declares a name twice leaves the next one a start that is too low: two names have
one id, and the earlier name does not go with it. -/
theorem ids_meet :
    (ofBlocks [⟨"A", [⟨"X", []⟩, ⟨"X", []⟩]⟩, ⟨"B", [⟨"Y", []⟩]⟩]).id? "X" = some 1 ∧
      (ofBlocks [⟨"A", [⟨"X", []⟩, ⟨"X", []⟩]⟩, ⟨"B", [⟨"Y", []⟩]⟩]).id? "Y" = some 1 ∧
      (ofBlocks [⟨"A", [⟨"X", []⟩, ⟨"X", []⟩]⟩, ⟨"B", [⟨"Y", []⟩]⟩]).name? 1 = some "Y" := by
  decide +kernel

end ConstructorTable

end InteractionGraph
