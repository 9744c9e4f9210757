import InteractionGraph.Proofs.Constructor.Identity

/-!
# What merging blocks makes of a table

A block is merged in the order of its names, not in that of its declarations, and two maps change on
the way: a name that has an id keeps it, and an id that has a name is given away.  Seen from outside,
none of that order is left.  `IsTableOf` says what the table has of the blocks that were merged, and
what the journal tells of them.

New names of one block do not meet, because they count up to different ids.  So an id is shared with
the name that it went with before the block, and the journal tells of it each time
(`idShared_mem_mergeLogged_iff`).
-/

namespace InteractionGraph.ConstructorTable

variable {blocks before after : List DataBlock} {block : DataBlock}
  {title name other former : String} {id place : UInt32} {table : ConstructorTable}
  {entries : List (String × UInt32)}

theorem name?_declare_of_ne (h : id ≠ place) :
    (declare title table name id).value.name? place = table.name? place := by
  cases hknown : table.id? name with
  | some known => rw [value_declare_of_known hknown]
  | none =>
    rw [value_declare_of_unknown hknown]
    change (table.names.insert id name)[place]? = table.names[place]?
    rw [Std.TreeMap.getElem?_insert, if_neg (by simpa using h)]

/-! ## Ids that are kept -/

theorem id?_merge_of_known (h : table.id? name = some id) :
    (table.merge block).id? name = some id := by
  rw [merge_eq_declareAll]
  generalize (proposals table.size block).toList = entries
  induction entries generalizing table with
  | nil => exact h
  | cons entry entries ih => exact ih (id?_declare_of_known h)

/-- No later block changes an id, whatever it declares. -/
theorem id?_foldl_merge_of_known (h : table.id? name = some id) (later : List DataBlock) :
    (later.foldl merge table).id? name = some id := by
  induction later generalizing table with
  | nil => exact h
  | cons block later ih => exact ih (id?_merge_of_known h)

/-! ## The name that an id goes with -/

/-- One of the blocks introduces the name with the id, and no block behind it introduces a name with
this id. -/
def IsLastName (blocks : List DataBlock) (id : UInt32) (name : String) : Prop :=
  ∃ before block after, blocks = before ++ block :: after ∧ Introduces before block name id ∧
    ∀ middle later rest, after = middle ++ later :: rest →
      ∀ other, ¬ Introduces (before ++ block :: middle) later other id

theorem mem_declaredNames_mono (h : before <+: after) (hname : name ∈ declaredNames before) :
    name ∈ declaredNames after := by
  obtain ⟨rest, rfl⟩ := h
  rw [declaredNames_append]
  exact List.mem_append_left _ hname

theorem mem_declaredNames_of_mem (h : name ∈ block.constructorNames) :
    name ∈ declaredNames (before ++ block :: after) := by
  rw [declaredNames_append]
  exact List.mem_append_right _ (List.mem_append_left _ h)

/-- The block that introduces a name is the last one with the id, if each other name with this id is
declared earlier. -/
theorem IsLastName.of_precedes (hid : HasId blocks name id)
    (hlast : ∀ other, HasId blocks other id → other = name ∨ Precedes blocks other name) :
    IsLastName blocks id name := by
  obtain ⟨before, block, after, rfl, hintroduces⟩ := hid
  refine ⟨before, block, after, rfl, hintroduces, ?_⟩
  rintro middle later rest rfl other hother
  have hblock : before ++ [block] <+: before ++ block :: middle := ⟨middle, by simp⟩
  have hall : before ++ [block] <+: before ++ block :: (middle ++ later :: rest) :=
    ⟨middle ++ later :: rest, by simp⟩
  have hname : name ∈ declaredNames (before ++ [block]) :=
    mem_declaredNames_of_mem hintroduces.2.mem
  -- The later block introduces `other`, so it is not declared up to there, but `name` is.
  rcases hlast other ⟨before ++ block :: middle, later, rest, by simp, hother⟩ with
    rfl | ⟨front, back, hsplit, hfront, hnot⟩
  · exact hother.1 (mem_declaredNames_mono hblock hname)
  · rcases List.prefix_or_prefix_of_prefix ⟨back, hsplit.symm⟩ hall with hshort | hlong
    · exact hother.1 (mem_declaredNames_mono (hshort.trans hblock) hfront)
    · exact hnot (mem_declaredNames_mono hlong hname)

theorem Identifies.name?_iff (h : Identifies blocks table) (hfit : IdsFit blocks) :
    table.name? id = some name ↔ IsLastName blocks id name := by
  rw [h.name?]
  constructor
  · rintro ⟨hid, hlast⟩
    exact .of_precedes hid hlast
  · rintro ⟨before, block, after, rfl, hintroduces, hlast⟩
    refine ⟨⟨before, block, after, rfl, hintroduces⟩, ?_⟩
    rintro other ⟨otherBefore, otherBlock, otherAfter, hsplit, hother⟩
    rcases append_cons_eq_append_cons_cases hsplit with
      ⟨rfl, rfl⟩ | ⟨middle, rfl, rfl⟩ | ⟨middle, rfl, rfl⟩
    · exact .inl (hintroduces.2.name_unique hother.2 (hfit before block after rfl))
    · exact absurd hother (hlast middle otherBlock otherAfter rfl other)
    · refine .inr (precedes_of_mem ?_ hintroduces.1 _)
      exact mem_declaredNames_of_mem hother.2.mem

/-! ## What the journal tells -/

/-- Of a declaration, the journal tells that an id is shared if the name is new and the id goes with
a name already. -/
theorem idShared_mem_declare_iff :
    .idShared former other place ∈ (declare title table name id).events ↔
      (other, place) = (name, id) ∧ table.id? name = none ∧ table.name? id = some former := by
  change _ ↔ _ ∧ table.ids[name]? = none ∧ table.names[id]? = some former
  unfold declare
  cases table.ids[name]? with
  | some known => simp [Logged.record, bind, Logged.bind, pure, Logged.pure]
  | none =>
    cases table.names[id]? with
    | none => simp [pure, Logged.pure]
    | some known =>
      simp [Logged.record, bind, Logged.bind, pure, Logged.pure]
      tauto

/-- Of some declarations, the journal tells what it tells of each of them on the table before
all. -/
theorem idShared_mem_declareAll_iff (hnames : (entries.map Prod.fst).Nodup)
    (hids : (entries.map Prod.snd).Nodup) :
    .idShared former name id ∈
        (entries.foldlM (fun table (name, id) => declare title table name id) table).events ↔
      (name, id) ∈ entries ∧ table.id? name = none ∧ table.name? id = some former := by
  induction entries generalizing table with
  | nil => simp [pure, Logged.pure]
  | cons entry entries ih =>
    obtain ⟨other, place⟩ := entry
    obtain ⟨hother, hnames⟩ := List.nodup_cons.mp hnames
    obtain ⟨hplace, hids⟩ := List.nodup_cons.mp hids
    have hsplit : .idShared former name id ∈ (((other, place) :: entries).foldlM
        (fun table (name, id) => declare title table name id) table).events ↔
        .idShared former name id ∈ (declare title table other place).events ∨
          .idShared former name id ∈ (entries.foldlM
            (fun table (name, id) => declare title table name id)
            (declare title table other place).value).events :=
      List.mem_append
    rw [hsplit, idShared_mem_declare_iff, ih hnames hids, List.mem_cons, or_and_right]
    refine or_congr (and_congr_right ?_) (and_congr_right fun hmem => ?_)
    · rintro ⟨⟩
      rfl
    · have hnameNe : other ≠ name := fun h => hother (List.mem_map.mpr ⟨_, hmem, h.symm⟩)
      have hidNe : place ≠ id := fun h => hplace (List.mem_map.mpr ⟨_, hmem, h.symm⟩)
      rw [id?_declare_of_ne hnameNe, name?_declare_of_ne hidNe]

/-- Of a block, the journal tells that an id is shared if the block introduces a name with an id
that goes with a name already. -/
theorem idShared_mem_mergeLogged_iff (h : Identifies before table)
    (hcount : nameCount before + block.constructorNames.length ≤ 2 ^ 32) :
    .idShared former name id ∈ (table.mergeLogged block).events ↔
      Introduces before block name id ∧ table.name? id = some former := by
  have hevents : (table.mergeLogged block).events =
      ((proposals table.size block).toList.foldlM
        (fun table (name, id) => declare block.name table name id) table).events ++
        [.blockMerged block.name (table.merge block).size] := rfl
  rw [← h.size] at hcount
  rw [hevents, List.mem_append, idShared_mem_declareAll_iff (nodup_proposals_names _ _)
    (nodup_proposals_ids hcount), h.id?_eq_none_iff, mem_proposals, h.size]
  simp [Introduces]
  tauto

theorem events_ofBlocksLogged_concat (before : List DataBlock) (block : DataBlock) :
    (ofBlocksLogged (before ++ [block])).events =
      (ofBlocksLogged before).events ++ ((ofBlocks before).mergeLogged block).events := by
  rw [← value_ofBlocksLogged, ofBlocksLogged, List.foldlM_append]
  simp only [List.foldlM_cons, List.foldlM_nil, bind_pure]
  rfl

theorem idShared_mem_ofBlocksLogged_iff (hfit : IdsFit blocks) :
    .idShared former name id ∈ (ofBlocksLogged blocks).events ↔
      ∃ before block after, blocks = before ++ block :: after ∧
        Introduces before block name id ∧ (ofBlocks before).name? id = some former := by
  induction blocks using List.reverseRecOn with
  | nil => simp [ofBlocksLogged, pure, Logged.pure]
  | append_singleton earlier last ih =>
    rw [events_ofBlocksLogged_concat, List.mem_append, ih hfit.of_append,
      idShared_mem_mergeLogged_iff (identifies_of_idsFit hfit.of_append)
        (hfit earlier last [] rfl)]
    constructor
    · rintro (⟨before, block, after, rfl, htold⟩ | htold)
      · exact ⟨before, block, after ++ [last], by simp, htold⟩
      · exact ⟨earlier, last, [], rfl, htold⟩
    · rintro ⟨before, block, after, hsplit, htold⟩
      rcases append_singleton_eq_append_cons_iff.mp hsplit with ⟨rfl, rfl, -⟩ | ⟨after, rfl, -⟩
      · exact .inr htold
      · exact .inl ⟨before, block, after, rfl, htold⟩

/-! ## The table of some blocks -/

theorem exists_isLastName (h : HasId blocks name id) : ∃ last, IsLastName blocks id last := by
  induction blocks using List.reverseRecOn with
  | nil =>
    obtain ⟨before, block, after, hsplit, -⟩ := h
    simp at hsplit
  | append_singleton earlier newest ih =>
    by_cases hnewest : ∃ last, Introduces earlier newest last id
    · obtain ⟨last, hlast⟩ := hnewest
      exact ⟨last, earlier, newest, [], rfl, hlast, by simp⟩
    · have hearlier := (hasId_append_singleton.mp h).resolve_right fun h => hnewest ⟨name, h⟩
      obtain ⟨last, before, block, after, rfl, hintroduces, hlast⟩ := ih hearlier
      refine ⟨last, before, block, after ++ [newest], by simp, hintroduces, ?_⟩
      intro middle later rest hsplit other
      rcases append_singleton_eq_append_cons_iff.mp hsplit with ⟨rfl, rfl, -⟩ | ⟨rest, hsplit, -⟩
      · exact fun h => hnewest ⟨other, h⟩
      · exact hlast middle later rest hsplit other

theorem exists_name?_iff (hfit : IdsFit blocks) :
    (∃ name, (ofBlocks blocks).name? id = some name) ↔
      ∃ name, (ofBlocks blocks).id? name = some id := by
  have hidentifies := identifies_of_idsFit hfit
  constructor
  · rintro ⟨name, hname⟩
    exact ⟨name, (hidentifies.id? name id).mpr ((hidentifies.name? id name).mp hname).1⟩
  · rintro ⟨name, hid⟩
    obtain ⟨last, hlast⟩ := exists_isLastName ((hidentifies.id? name id).mp hid)
    exact ⟨last, (hidentifies.name?_iff hfit).mpr hlast⟩

/-- A name that takes the id of a name before it does so with a word in the journal. -/
theorem exists_idShared_mem_of_hasId (hfit : IdsFit (before ++ block :: after))
    (hother : HasId before other id) (hname : Introduces before block name id) : ∃ former,
      .idShared former name id ∈ (ofBlocksLogged (before ++ block :: after)).events := by
  have hbefore : IdsFit before := hfit.of_append
  obtain ⟨former, hformer⟩ := (exists_name?_iff hbefore).mpr
    ⟨other, ((identifies_of_idsFit hbefore).id? other id).mpr hother⟩
  exact ⟨former, (idShared_mem_ofBlocksLogged_iff hfit).mpr
    ⟨before, block, after, rfl, hname, hformer⟩⟩

theorem exists_idShared_mem (hfit : IdsFit blocks) (hne : name ≠ other)
    (hname : HasId blocks name id) (hother : HasId blocks other id) : ∃ former,
      .idShared former name id ∈ (ofBlocksLogged blocks).events ∨
        .idShared former other id ∈ (ofBlocksLogged blocks).events := by
  obtain ⟨before, block, after, rfl, hname⟩ := hname
  obtain ⟨otherBefore, otherBlock, otherAfter, hsplit, hother⟩ := hother
  rcases append_cons_eq_append_cons_cases hsplit with
    ⟨rfl, rfl⟩ | ⟨middle, rfl, rfl⟩ | ⟨middle, rfl, rfl⟩
  · exact absurd (hother.2.name_unique hname.2 (hfit before block after rfl)) hne
  · rw [hsplit] at hfit ⊢
    obtain ⟨former, htold⟩ :=
      exists_idShared_mem_of_hasId hfit ⟨before, block, middle, rfl, hname⟩ hother
    exact ⟨former, .inr htold⟩
  · obtain ⟨former, htold⟩ :=
      exists_idShared_mem_of_hasId hfit ⟨otherBefore, otherBlock, middle, rfl, hother⟩ hname
    exact ⟨former, .inl htold⟩

/-- What a table has of the blocks that were merged into it, and what the journal tells of this. -/
structure IsTableOf (blocks : List DataBlock) (table : ConstructorTable) (events : List Event) :
    Prop where
  /-- The size is the number of different names. -/
  size : table.size = nameCount blocks
  isEmpty_iff : table.isEmpty = true ↔ declaredNames blocks = []
  id?_eq_none_iff : ∀ name, table.id? name = none ↔ name ∉ declaredNames blocks
  /-- The id of a name is the number of different names before the block that declares it first,
  and the position of its last declaration in this block. -/
  id?_eq : ∀ before block after name front back, blocks = before ++ block :: after →
    name ∉ declaredNames before → block.constructorNames = front ++ name :: back → name ∉ back →
    (table.id? name).map UInt32.toNat = some (nameCount before + front.length)
  /-- No block that is merged later changes an id. -/
  id?_merge : ∀ name id (later : List DataBlock), table.id? name = some id →
    (later.foldl merge table).id? name = some id
  /-- An id goes with a name if it is the id of some name. -/
  exists_name?_iff : ∀ id, (∃ name, table.name? id = some name) ↔ ∃ name, table.id? name = some id
  /-- An id goes with the name of the last block that gave it. -/
  name?_iff : ∀ id name, table.name? id = some name ↔ IsLastName blocks id name
  id?_of_name? : ∀ id name, table.name? id = some name → table.id? name = some id
  mem_toList_iff : ∀ id name, (id, name) ∈ table.toList ↔ table.name? id = some name
  /-- The ids are listed in their order. -/
  pairwise_toList : table.toList.Pairwise fun first second => first.1 < second.1
  /-- The journal tells each time that a new name takes an id that goes with a name already. -/
  idShared_mem_iff : ∀ former name id, .idShared former name id ∈ events ↔
    ∃ before block after, blocks = before ++ block :: after ∧ Introduces before block name id ∧
      (ofBlocks before).name? id = some former
  /-- No two names have one id without a word in the journal. -/
  exists_idShared_mem : ∀ first second id, first ≠ second → table.id? first = some id →
    table.id? second = some id → ∃ former,
      .idShared former first id ∈ events ∨ .idShared former second id ∈ events

theorem Identifies.map_toNat_id? (h : Identifies (before ++ block :: after) table)
    (hcount : nameCount before + block.constructorNames.length ≤ 2 ^ 32)
    {front back : List String} (hname : name ∉ declaredNames before)
    (hsplit : block.constructorNames = front ++ name :: back) (hback : name ∉ back) :
    (table.id? name).map UInt32.toNat = some (nameCount before + front.length) := by
  have hid : HasId (before ++ block :: after) name
      (UInt32.ofNat (nameCount before + front.length)) :=
    ⟨before, block, after, rfl, hname, front, back, hsplit, hback, rfl⟩
  rw [(h.id? _ _).mpr hid, Option.map_some, UInt32.toNat_ofNat_of_lt']
  rw [hsplit, List.length_append, List.length_cons] at hcount
  change _ < 2 ^ 32
  omega

theorem pairwise_toList (table : ConstructorTable) :
    table.toList.Pairwise fun first second => first.1 < second.1 :=
  Std.TreeMap.ordered_keys_toList.imp Std.compare_eq_lt.mp

/-- The blocks alone say what table they are merged into, and what the journal tells. -/
theorem isTableOf_ofBlocks (hfit : IdsFit blocks) :
    IsTableOf blocks (ofBlocks blocks) (ofBlocksLogged blocks).events := by
  have h : Identifies blocks (ofBlocks blocks) := identifies_of_idsFit hfit
  exact {
    size := h.size
    isEmpty_iff := by
      rw [isEmpty, Std.TreeMap.isEmpty_eq_size_eq_zero, beq_iff_eq, ← size, h.size, nameCount,
        Finset.card_eq_zero, List.toFinset_eq_empty_iff]
    id?_eq_none_iff := fun _ => h.id?_eq_none_iff
    id?_eq := by
      rintro before block after name front back rfl hname hsplit hback
      exact h.map_toNat_id? (hfit before block after rfl) hname hsplit hback
    id?_merge := fun _ _ later hid => id?_foldl_merge_of_known hid later
    exists_name?_iff := fun _ => exists_name?_iff hfit
    name?_iff := fun _ _ => h.name?_iff hfit
    id?_of_name? := fun id name hname => (h.id? name id).mpr ((h.name? id name).mp hname).1
    mem_toList_iff := fun _ _ => Std.TreeMap.mem_toList_iff_getElem?_eq_some
    pairwise_toList := pairwise_toList _
    idShared_mem_iff := fun _ _ _ => idShared_mem_ofBlocksLogged_iff hfit
    exists_idShared_mem := fun first second id hne hfirst hsecond =>
      exists_idShared_mem hfit hne ((h.id? first id).mp hfirst) ((h.id? second id).mp hsecond) }

/-- The first block skips an id.  The name of the second block takes the id that the last name of
the first has, which the journal tells. -/
theorem isTableOf_ofBlocks_skips :
    (declaredNames [⟨"A", [⟨"X", []⟩, ⟨"X", []⟩]⟩, ⟨"B", [⟨"Y", []⟩]⟩]).length ≤ 2 ^ 32 ∧
      (ofBlocks [⟨"A", [⟨"X", []⟩, ⟨"X", []⟩]⟩, ⟨"B", [⟨"Y", []⟩]⟩]).name? 1 = some "Y" ∧
      .idShared "X" "Y" 1 ∈
        (ofBlocksLogged [⟨"A", [⟨"X", []⟩, ⟨"X", []⟩]⟩, ⟨"B", [⟨"Y", []⟩]⟩]).events := by
  have hfit : IdsFit [⟨"A", [⟨"X", []⟩, ⟨"X", []⟩]⟩, ⟨"B", [⟨"Y", []⟩]⟩] :=
    idsFit_of_length_le (by decide)
  have h := isTableOf_ofBlocks hfit
  have hintroduces : Introduces [⟨"A", [⟨"X", []⟩, ⟨"X", []⟩]⟩] ⟨"B", [⟨"Y", []⟩]⟩ "Y" 1 :=
    ⟨by decide, [], [], rfl, by simp, by decide⟩
  refine ⟨by decide, (h.name?_iff 1 "Y").mpr ⟨_, _, [], rfl, hintroduces, by simp⟩, ?_⟩
  exact (h.idShared_mem_iff "X" "Y" 1).mpr ⟨_, _, [], rfl, hintroduces, by decide +kernel⟩

end InteractionGraph.ConstructorTable
