import InteractionGraph.Proofs.Constructor.Identity
import InteractionGraph.Proofs.Grammar.BookSound
import InteractionGraph.Proofs.Grammar.Progress
import InteractionGraph.Proofs.Report.Failure

/-!
# The two readings of a book

A book is read twice, the first time only for its leading data blocks.  Both readings take the same
blocks, since a repetition of one parser from one cursor does not hang on what follows.  So the book
could as well be read once, by a parser that merges each block into a table as it goes along
(`bookInOnePass`).

The leading blocks are all the blocks that are written at the beginning of the text, one behind the
other, whatever follows them (`blocksLead_iff`).  Therefore no name that they declare is ever
reported as unknown.
-/

namespace InteractionGraph

open Parse Parser Text Grammar

variable {table : ConstructorTable} {cursor middle behind : Cursor} {text rest : List Char}
  {blocks : List DataBlock}

/-! ## Reading in one pass -/

namespace Grammar

/-- Data blocks, and the table that they make of a given one, for up to `fuel` blocks. -/
def mergedBlocksUpTo : Nat → ConstructorTable → Parser (List DataBlock × ConstructorTable)
  | 0, table => pure ([], table)
  | fuel + 1, table =>
    (do
      let block ← dataBlock
      let others ← mergedBlocksUpTo fuel (table.merge block)
      return (block :: others.1, others.2)) <|> pure ([], table)

/-- Data blocks, and the table that they make up. -/
def mergedBlocks : Parser (List DataBlock × ConstructorTable) := fun cursor =>
  mergedBlocksUpTo (cursor.rest.length + 1) .empty cursor

/-- A text that is a book and nothing else, where the table grows with each block. -/
def bookInOnePass : Parser BookSource := do
  let merged ← mergedBlocks
  let definitions ← many (definition merged.2)
  blank
  endOfInput
  return ⟨merged.1, definitions, merged.2⟩

/-- The first reading: the leading blocks, and then any characters up to the end. -/
def leadingText : Parser (List DataBlock) := do
  let blocks ← many dataBlock
  let _ ← many anyChar
  endOfInput
  return blocks

end Grammar

/-- To map what a parser reads changes nothing else. -/
theorem Parse.Parser.map_apply {α β : Type} (f : α → β) (p : Parser α) (cursor : Cursor) :
    (f <$> p) cursor = ⟨(p cursor).result?.map fun found => (f found.1, found.2),
      (p cursor).alternative?⟩ := by
  rw [map_eq_pure_bind]
  cases h : (p cursor).result? with
  | none => rw [bind_apply_of_none h]; rfl
  | some reading => rw [bind_apply_of_some h, pure_apply, farther_none]; rfl

theorem Parse.Parser.read_map {α β : Type} (f : α → β) (p : Parser α) :
    (f <$> p).read text = (p.read text).map f := by
  rw [Parser.read, Parser.read, map_apply]
  cases (p (.ofText text)).result? <;> rfl

/-- To merge along is to read the blocks and to merge them then. -/
theorem Grammar.mergedBlocksUpTo_eq (fuel : Nat) (table : ConstructorTable) :
    mergedBlocksUpTo fuel table =
      (fun blocks => (blocks, blocks.foldl ConstructorTable.merge table)) <$>
        manyUpTo dataBlock fuel := by
  induction fuel generalizing table with
  | zero => rfl
  | succ fuel ih =>
    funext cursor
    rw [map_apply, mergedBlocksUpTo]
    cases hfirst : (dataBlock cursor).result? with
    | none =>
      rw [orElse_apply_of_none (by rw [bind_apply_of_none hfirst]), bind_apply_of_none hfirst,
        pure_apply, farther_none]
      simp only [manyUpTo, hfirst]
      rfl
    | some reading =>
      obtain ⟨block, middle⟩ := reading
      have hnever : ¬ Fails (manyUpTo dataBlock fuel) middle := not_fails_manyUpTo fuel
      obtain ⟨⟨blocks, behind⟩, hothers⟩ := Option.ne_none_iff_exists'.mp hnever
      have hmerged : mergedBlocksUpTo fuel (table.merge block) middle =
          ⟨some ((blocks, blocks.foldl ConstructorTable.merge (table.merge block)), behind),
            (manyUpTo dataBlock fuel middle).alternative?⟩ := by
        rw [ih, map_apply, hothers]
        rfl
      have hblocks : (do
          let block ← dataBlock
          let others ← mergedBlocksUpTo fuel (table.merge block)
          return (block :: others.1, others.2) : Parser _) cursor =
          ⟨some ((block :: blocks, (block :: blocks).foldl ConstructorTable.merge table), behind),
            farther (dataBlock cursor).alternative?
              (manyUpTo dataBlock fuel middle).alternative?⟩ := by
        rw [bind_apply_of_some hfirst, bind_apply_of_some (by rw [hmerged]), hmerged, pure_apply,
          farther_none]
        rfl
      rw [orElse_apply_of_some (by rw [hblocks]), hblocks]
      simp only [manyUpTo, hfirst, hothers]
      rfl

theorem BookSource.exists_gives_leadingBlocks (text : List Char) :
    ∃ behind, Gives (many dataBlock) (.ofText text) (leadingBlocks text) behind := by
  have hnever : ¬ Fails (many dataBlock) (.ofText text) := not_fails_many
  obtain ⟨blocks, behind, hblocks⟩ := not_fails_iff.mp hnever
  have hmany : (many dataBlock (.ofText text)).result? = some (blocks, behind) := hblocks
  refine ⟨behind, ?_⟩
  rw [leadingBlocks, hmany]
  exact hblocks

/-- The first reading gives the leading blocks of any text. -/
theorem BookSource.gives_leadingText (text : List Char) :
    ∃ behind, Gives leadingText (.ofText text) (leadingBlocks text) behind := by
  obtain ⟨middle, hblocks⟩ := exists_gives_leadingBlocks text
  have hnever : ¬ Fails (many anyChar) middle := not_fails_many
  obtain ⟨others, behind, hothers⟩ := not_fails_iff.mp hnever
  have hend : behind.rest = [] := by
    obtain ⟨-, -, hstops⟩ := (takes_satisfy fun _ => true).gives_many hothers
    cases hrest : behind.rest with
    | nil => rfl
    | cons c rest => exact absurd (hstops c (by rw [hrest]; rfl)) (by simp)
  refine ⟨behind, ?_⟩
  simp only [leadingText, gives_bind, gives_pure]
  exact ⟨_, _, hblocks, others, _, hothers, (), _, gives_endOfInput.mpr ⟨hend, rfl⟩, rfl, rfl⟩

/-- One reading is enough. -/
theorem BookSource.read_eq_bookInOnePass (text : String) :
    BookSource.read text = bookInOnePass.read text.toList := by
  obtain ⟨behind, hblocks⟩ := exists_gives_leadingBlocks text.toList
  rw [read_eq, ← read_map]
  set blocks := leadingBlocks text.toList
  have hmany : (many dataBlock (.ofText text.toList)).result? = some (blocks, behind) := hblocks
  have hmerged : mergedBlocks (.ofText text.toList) =
      ⟨some ((blocks, .ofBlocks blocks), behind),
        (many dataBlock (.ofText text.toList)).alternative?⟩ := by
    rw [mergedBlocks, mergedBlocksUpTo_eq, map_apply]
    change (⟨(many dataBlock (.ofText text.toList)).result?.map _, _⟩ : Reply _) = _
    rw [hmany]
    rfl
  have hreply : ((fun found : List DataBlock × List (String × Tree) =>
      (⟨found.1, found.2, .ofBlocks blocks⟩ : BookSource)) <$> bookText (.ofBlocks blocks))
        (.ofText text.toList) = bookInOnePass (.ofText text.toList) := by
    have hfirst : (many (dataBlockWith blank) (.ofText text.toList)).result? =
      some (blocks, behind) := hmany
    have hresult : (mergedBlocks (.ofText text.toList)).result? =
        some ((blocks, .ofBlocks blocks), behind) := by
      rw [hmerged]
    simp only [bookText, bookTextWith, bookInOnePass, map_bind, map_pure]
    rw [bind_apply_of_some hfirst, bind_apply_of_some hresult, hmerged]
    rfl
  rw [Parser.read, Parser.read, hreply]

/-! ## The leading blocks -/

/-- The text begins with the data blocks, each of them written in some way, and something follows
them. -/
def Grammar.BlocksLead (blocks : List DataBlock) (text : List Char) : Prop :=
  ∃ (written : List (DataBlock × List Token)) (rest : List Char),
    written.map Prod.fst = blocks ∧ (∀ item ∈ written, DerivesBlock item.1 item.2) ∧
      Scans (written.flatMap Prod.snd) text rest

theorem Grammar.Apart.of_append {token : Token} {after : List Char}
    (h : Apart token (text ++ after)) : Apart token text := by
  cases text with
  | nil => exact ⟨nofun, nofun⟩
  | cons c text => exact h

/-- Tokens at the beginning of a text are laid out in it, with the rest as one token more. -/
theorem Grammar.Scans.spells_rest {tokens : List Token} (h : Scans tokens text rest) :
    Spells (tokens ++ [rest]) text := by
  induction h with
  | @nil text =>
    have hspells : Spells [text] ([] ++ (text ++ [])) := .cons .nil ⟨nofun, nofun⟩ (.nil .nil)
    rwa [List.nil_append, List.append_nil] at hspells
  | @cons gap after rest token tokens hroom hne hlongest _ ih =>
    have hgap : IsGap gap := hroom.isGap_of_ne_nil (by simp [hne])
    exact .cons hgap (hlongest.apart hroom.fresh).of_append ih

/-- Blocks that are written one behind the other are read one behind the other. -/
theorem Grammar.exists_runs_of_spells {written : List (DataBlock × List Token)}
    {more : List Token} (hwritten : ∀ item ∈ written, DerivesBlock item.1 item.2)
    (h : Spells (written.flatMap Prod.snd ++ more) text) (offset : Nat) :
    ∃ behind, Runs dataBlock ⟨offset, text⟩ (written.map Prod.fst) behind := by
  induction written generalizing text offset with
  | nil => exact ⟨_, .nil⟩
  | cons item written ih =>
    obtain ⟨hfirst, hothers⟩ := List.forall_mem_cons.mp hwritten
    rw [List.flatMap_cons, List.append_assoc] at h
    obtain ⟨rest, hreads, -, hrest⟩ := exists_reads_dataBlock hfirst h
    obtain ⟨middle, hblock⟩ := hreads offset
    obtain ⟨behind, hruns⟩ := ih hothers hrest middle
    exact ⟨behind, .cons hblock hruns⟩

/-- A run that ends where the parser fails goes at least as far as any other. -/
theorem Parse.Parser.Runs.prefix_of_fails {α : Type} {p : Parser α} {values others : List α}
    {last : Cursor} (h : Runs p cursor values behind) (hothers : Runs p cursor others last)
    (hfails : Fails p last) : values <+: others := by
  induction h generalizing others with
  | nil => exact List.nil_prefix
  | cons hfirst _ ih =>
    cases hothers with
    | nil => exact absurd hfails hfirst.not_fails
    | cons hfirst' hothers =>
      obtain ⟨rfl, rfl⟩ := hfirst.unique hfirst'
      exact List.cons_prefix_cons.mpr ⟨rfl, ih hothers⟩

theorem Parse.Parser.Runs.exists_of_append {α : Type} {p : Parser α} {values others : List α}
    (h : Runs p cursor (values ++ others) behind) : ∃ middle, Runs p cursor values middle := by
  induction values generalizing cursor with
  | nil => exact ⟨cursor, .nil⟩
  | cons value values ih =>
    cases h with
    | cons hfirst hothers =>
      obtain ⟨middle, hruns⟩ := ih hothers
      exact ⟨middle, .cons hfirst hruns⟩

/-- The leading blocks are all that are written at the beginning of the text. -/
theorem blocksLead_iff : BlocksLead blocks text ↔ blocks <+: BookSource.leadingBlocks text := by
  obtain ⟨behind, hmany⟩ := BookSource.exists_gives_leadingBlocks text
  constructor
  · rintro ⟨written, rest, rfl, hwritten, hscans⟩
    obtain ⟨last, hruns⟩ := exists_runs_of_spells hwritten hscans.spells_rest 0
    exact hruns.prefix_of_fails hmany.runs (hmany.fails_of_many (advances_of_alike alike_dataBlock))
  · rintro ⟨others, hothers⟩
    have hruns := hmany.runs
    rw [← hothers] at hruns
    obtain ⟨middle, hblocks⟩ := hruns.exists_of_append
    obtain ⟨written, hmap, hwritten, hscans⟩ :=
      exists_written_of_runs exists_derives_of_gives_dataBlock hblocks
    exact ⟨written, middle.rest, hmap, hwritten, hscans⟩

/-! ## Names that are declared -/

namespace ConstructorTable

variable {name other title : String} {id : UInt32}

theorem id?_declare_ne_none (h : name = other ∨ table.id? name ≠ none) :
    (declare title table other id).value.id? name ≠ none := by
  cases hknown : table.id? name with
  | some known =>
    rw [id?_declare_of_known hknown]
    exact nofun
  | none =>
    obtain rfl := h.resolve_right (absurd hknown)
    rw [value_declare_of_unknown hknown]
    change (table.ids.insert name id)[name]? ≠ none
    simp

theorem id?_declareAll_ne_none {entries : List (String × UInt32)}
    (h : name ∈ entries.map Prod.fst ∨ table.id? name ≠ none) :
    (declareAll title table entries).id? name ≠ none := by
  induction entries generalizing table with
  | nil => exact h.resolve_left List.not_mem_nil
  | cons entry entries ih =>
    refine ih ?_
    rw [List.map_cons, List.mem_cons] at h
    rcases h with (heq | hmem) | hknown
    · exact .inr (id?_declare_ne_none (.inl heq))
    · exact .inl hmem
    · exact .inr (id?_declare_ne_none (.inr hknown))

/-- A block that is merged makes its names known, and no name is forgotten. -/
theorem id?_merge_ne_none {block : DataBlock}
    (h : name ∈ block.constructorNames ∨ table.id? name ≠ none) :
    (table.merge block).id? name ≠ none := by
  rw [merge_eq_declareAll]
  refine id?_declareAll_ne_none (h.imp_left fun hmem => ?_)
  obtain ⟨id, hid⟩ := exists_countsTo table.size hmem
  exact List.mem_map_of_mem (mem_proposals.mpr hid)

theorem id?_ofBlocks_ne_none (h : name ∈ declaredNames blocks) :
    (ofBlocks blocks).id? name ≠ none := by
  induction blocks using List.reverseRecOn with
  | nil => cases h
  | append_singleton before block ih =>
    rw [declaredNames_append, declaredNames_singleton, List.mem_append] at h
    rw [ofBlocks, List.foldl_concat]
    exact id?_merge_ne_none (h.symm.imp_right ih)

end ConstructorTable

/-! ## Both readings -/

/-- The two readings of a book agree.  The first one always gives something, which is all the data
blocks that are written at the beginning of the text.  The table of a book that is read is that of
its blocks, and one pass would give the same result, be it a book or a report.  No name that is
declared at the beginning of the text is reported as unknown. -/
theorem BookSource.readings_agree (text : String) :
    (∃ behind, Gives leadingText (.ofText text.toList) (leadingBlocks text.toList) behind) ∧
      (∀ source, BookSource.read text = .ok source →
        source.constructors = source.blocks.foldl ConstructorTable.merge .empty) ∧
      BookSource.read text = bookInOnePass.read text.toList ∧
      (∀ blocks, BlocksLead blocks text.toList ↔ blocks <+: leadingBlocks text.toList) ∧
      ∀ report name, BookSource.read text = .error report →
        report.cause = .rejected (.unknownConstructor name) →
        ∀ blocks, BlocksLead blocks text.toList → ∀ block ∈ blocks,
          ∀ declaration ∈ block.constructors, declaration.name ≠ name := by
  refine ⟨gives_leadingText _, fun _ h => (isReading_of_read h).1, read_eq_bookInOnePass text,
    fun _ => blocksLead_iff, ?_⟩
  rintro report name hread hcause blocks hblocks block hblock declaration hdeclaration rfl
  obtain ⟨⟨span, reason⟩, quiet, rfl, hfailure⟩ := exists_failure_of_book hread
  obtain ⟨first, last, -, -, haccounts⟩ := hfailure.coherent.accounts
  cases reason with
  | expected expectations => cases hcause
  | rejected rejection =>
    obtain rfl := Report.Cause.rejected.inj hcause
    have hunknown := haccounts.2.2
    have hmem : declaration.name ∈
        ConstructorTable.declaredNames (leadingBlocks text.toList) := by
      have hlead := (blocksLead_iff.mp hblocks).subset hblock
      exact List.mem_flatMap.mpr ⟨block, hlead, List.mem_map_of_mem hdeclaration⟩
    have hknown := ConstructorTable.id?_ofBlocks_ne_none hmem
    obtain ⟨id, hid⟩ := Option.ne_none_iff_exists'.mp hknown
    rw [ConstructorTable.resolve, hid] at hunknown
    cases hunknown

/-- A definition with a constructor that the block in front of it does not declare. -/
theorem BookSource.readings_agree_unknown :
    BookSource.read "dataA{#X{}}@f=#Y{}" = .error ⟨"dataA{#X{}}@f=#Y{}".toList, ⟨15, 16⟩,
        .rejected (.unknownConstructor "Y"), [], some "Y"⟩ ∧
      BlocksLead [⟨"A", [⟨"X", []⟩]⟩] "dataA{#X{}}@f=#Y{}".toList ∧
      bookInOnePass.read "dataA{#X{}}@f=#Y{}".toList = .error ⟨"dataA{#X{}}@f=#Y{}".toList,
        ⟨15, 16⟩, .rejected (.unknownConstructor "Y"), [], some "Y"⟩ := by
  obtain ⟨-, -, hpass, hlead, -⟩ := readings_agree "dataA{#X{}}@f=#Y{}"
  have hread : BookSource.read "dataA{#X{}}@f=#Y{}" = .error ⟨"dataA{#X{}}@f=#Y{}".toList,
      ⟨15, 16⟩, .rejected (.unknownConstructor "Y"), [], some "Y"⟩ :=
    read_eq_error_iff.mpr (Parser.read_eq_error_iff.mpr ⟨by decide +kernel, by decide +kernel⟩)
  have hblocks : leadingBlocks "dataA{#X{}}@f=#Y{}".toList = [⟨"A", [⟨"X", []⟩]⟩] := by
    decide +kernel
  exact ⟨hread, (hlead _).mpr (by rw [hblocks]), hpass ▸ hread⟩

end InteractionGraph
