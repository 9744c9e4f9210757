import InteractionGraph.Proofs.Grammar.BookComplete
import InteractionGraph.Proofs.Grammar.Sound

/-!
# Every book that is read is written there

What the parser of books gives is derived from the tokens of the text, block by block and definition
by definition (`BookSource.isReading_of_read`).  The table is the one that the blocks of the book
make up, because both readings of the text take the same blocks.

The keyword of a data block is the only token that the parser does not look for the end of.  So the
gap behind it decides which of the two ways to write the block stands there (`scans_keyword`).
-/

namespace InteractionGraph

namespace Grammar

open Parse Parser Text

variable {table : ConstructorTable} {cursor behind : Cursor} {text rest : List Char}

/-- The text is a reading of the book: cut into tokens of its blocks and its definitions, with
nothing left but room. -/
def IsBookReading (blocks : List DataBlock) (definitions : List (String × Tree))
    (text : List Char) : Prop :=
  ∃ tokens rest, DerivesBook blocks definitions tokens ∧ Scans tokens text rest ∧ Room rest []

/-! ## Declarations -/

theorem scans_field {name : String} (h : Gives (field blank) cursor name behind) :
    IsName name ∧ Scans [name.toList] cursor.rest behind.rest := by
  obtain ⟨_, _, hroom, hname⟩ := gives_bind.mp h
  exact scans_name (gives_blank hroom) hname

theorem scans_constructorDeclaration {declaration : ConstructorDeclaration}
    (h : Gives (constructorDeclaration blank) cursor declaration behind) :
    DeclarationWritable declaration ∧
      Scans (declarationTokens declaration) cursor.rest behind.rest := by
  simp only [constructorDeclaration, gives_named, gives_bind, gives_pure] at h
  obtain ⟨_, _, hroom, _, _, hmark, name, _, hname, _, _, hroom', _, _, hopen, fields, _, hfields,
    rfl, rfl⟩ := h
  obtain ⟨hn, hrest, hstops⟩ := gives_name hname
  have hhead := scans_marked (gives_blank hroom) hmark hrest
    (longest_letters ['#'] hn.1 hn.2 hstops)
  have hbrace := scans_symbol (by decide) (gives_blank hroom') hopen
  obtain ⟨written, hmap, hwritten, -, hscans⟩ :=
    exists_scans_of_closedBy (by decide) (fun hfield => ⟨_, rfl, scans_field hfield⟩) hfields
  rw [List.map_id'] at hmap
  rw [hmap] at hwritten hscans
  rw [← List.map_eq_flatMap] at hscans
  exact ⟨⟨hn, hwritten⟩, hhead.append (hbrace.append hscans)⟩

/-! ## Data blocks -/

/-- Without a gap, the keyword and the name of a block are one token. -/
theorem scans_keyword {block : DataBlock} {after : List Char} (hblock : BlockWritable block)
    (hroom : Spaces text (keyword ++ after)) (hroom' : Spaces after (block.name.toList ++ rest))
    (hstops : Stops isNameChar rest) :
    ∃ tokens, DerivesBlock block (tokens ++ constructorsTokens block) ∧ Scans tokens text rest := by
  have hletters : ∀ c ∈ keyword, isNameChar c = true := by decide
  have hname := hblock.1
  obtain ⟨gap, rfl, hgap⟩ := hroom'
  by_cases hne : gap = []
  · subst hne
    have hboth : ∀ c ∈ keyword ++ block.name.toList, isNameChar c = true :=
      List.forall_mem_append.mpr ⟨hletters, hname.2⟩
    rw [List.nil_append, ← List.append_assoc] at hroom
    exact ⟨[keyword ++ block.name.toList], .joined hblock,
      hroom.scans (by simp [keyword]) (longest_letters [] (by simp) hboth hstops)⟩
  · have hfirst := hroom.scans (by simp [keyword])
      (longest_letters [] (by simp) hletters (hgap.stops_of_ne_nil hne))
    have hspaces : Spaces _ (block.name.toList ++ rest) := ⟨gap, rfl, hgap⟩
    have hsecond := hspaces.scans hname.1 (longest_letters [] hname.1 hname.2 hstops)
    exact ⟨[keyword, block.name.toList], .apart hblock, hfirst.append hsecond⟩

theorem exists_derives_of_gives_dataBlock {block : DataBlock}
    (h : Gives dataBlock cursor block behind) :
    ∃ tokens, DerivesBlock block tokens ∧ Scans tokens cursor.rest behind.rest := by
  simp only [dataBlock, dataBlockWith, gives_named, gives_bind, gives_pure] at h
  obtain ⟨_, _, hroom, _, _, hkeyword, _, _, hroom', name, _, hname, _, _, hroom'', _, _, hopen,
    constructors, _, hconstructors, rfl, rfl⟩ := h
  obtain ⟨hn, hrest, hstops⟩ := gives_name hname
  have hspaces := gives_blank hroom
  rw [rest_of_gives_chars hkeyword] at hspaces
  have hspaces' := gives_blank hroom'
  rw [hrest] at hspaces'
  have hbrace := scans_symbol (by decide) (gives_blank hroom'') hopen
  obtain ⟨written, hmap, hwritten, -, hscans⟩ := exists_scans_of_closedBy (by decide)
    (fun hdeclaration => ⟨_, rfl, scans_constructorDeclaration hdeclaration⟩) hconstructors
  rw [List.map_id'] at hmap
  subst hmap
  have hblock : BlockWritable ⟨name, written⟩ := ⟨hn, hwritten⟩
  obtain ⟨tokens, htokens, hhead⟩ := scans_keyword hblock hspaces hspaces' hstops
  exact ⟨_, htokens, hhead.append (hbrace.append hscans)⟩

/-! ## Definitions -/

theorem exists_derives_of_gives_definition {definition : String × Tree}
    (h : Gives (Grammar.definition table) cursor definition behind) :
    ∃ tokens, DerivesDefinition table definition tokens ∧
      Scans tokens cursor.rest behind.rest := by
  simp only [Grammar.definition, definitionWith, gives_named, gives_bind, gives_pure] at h
  obtain ⟨_, _, hroom, _, _, hmark, name, _, hname, _, _, hroom', _, _, hequals, tree, _, htree,
    rfl, rfl⟩ := h
  obtain ⟨hn, hrest, hstops⟩ := gives_name hname
  have hhead := scans_marked (gives_blank hroom) hmark hrest
    (longest_letters ['@'] hn.1 hn.2 hstops)
  have hsign := scans_symbol (by decide) (gives_blank hroom') hequals
  obtain ⟨tokens, hderives, hscans⟩ := sound_termWith htree
  exact ⟨_, .intro hn hderives, hhead.append (hsign.append hscans)⟩

/-! ## Whole texts -/

/-- What was given one behind the other is written one behind the other. -/
theorem exists_written_of_runs {α : Type} {p : Parser α} {Written : α → List Token → Prop}
    {values : List α}
    (hitem : ∀ {cursor value behind}, Gives p cursor value behind →
      ∃ tokens, Written value tokens ∧ Scans tokens cursor.rest behind.rest)
    (h : Runs p cursor values behind) :
    ∃ written : List (α × List Token), written.map Prod.fst = values ∧
      (∀ item ∈ written, Written item.1 item.2) ∧
      Scans (written.flatMap Prod.snd) cursor.rest behind.rest := by
  induction h with
  | nil => exact ⟨[], rfl, by simp, .nil⟩
  | cons hfirst _ ih =>
    obtain ⟨tokens, htokens, hscans⟩ := hitem hfirst
    obtain ⟨written, rfl, hwritten, hothers⟩ := ih
    exact ⟨(_, tokens) :: written, rfl, List.forall_mem_cons.mpr ⟨htokens, hwritten⟩,
      hscans.append hothers⟩

variable {blocks : List DataBlock} {definitions : List (String × Tree)}

/-- The blocks of a book are those that its text begins with. -/
theorem leadingBlocks_of_gives
    (h : Gives (bookText table) (.ofText text) (blocks, definitions) behind) :
    BookSource.leadingBlocks text = blocks := by
  simp only [bookText, bookTextWith, gives_bind, gives_pure] at h
  obtain ⟨found, _, hblocks, _, _, hdefinitions, _, _, hroom, _, _, hend, hpair, rfl⟩ := h
  cases hpair
  have hmany : (many dataBlock (.ofText text)).result? = _ := hblocks
  unfold BookSource.leadingBlocks
  rw [hmany]

theorem isBookReading_of_gives (htable : table = .ofBlocks blocks)
    (h : Gives (bookText table) cursor (blocks, definitions) behind) :
    IsBookReading blocks definitions cursor.rest := by
  simp only [bookText, bookTextWith, gives_bind, gives_pure] at h
  obtain ⟨found, _, hblocks, found', _, hdefinitions, _, _, hroom, _, _, hend, hpair, rfl⟩ := h
  cases hpair
  obtain ⟨hnil, rfl⟩ := gives_endOfInput.mp hend
  obtain ⟨written, rfl, hwritten, hscans⟩ :=
    exists_written_of_runs exists_derives_of_gives_dataBlock (Gives.runs hblocks)
  subst htable
  obtain ⟨written', rfl, hwritten', hscans'⟩ :=
    exists_written_of_runs exists_derives_of_gives_definition (Gives.runs hdefinitions)
  obtain ⟨gap, hgap, hroom⟩ := gives_blank hroom
  rw [hnil] at hgap hroom
  rw [hgap, List.append_nil] at hscans'
  exact ⟨_, gap, .intro hwritten hwritten', hscans.append hscans', hroom⟩

end Grammar

open Grammar Parse

/-- What is read is a reading of the text, and the table is that of its data blocks. -/
theorem BookSource.isReading_of_read {text : String} {source : BookSource}
    (h : BookSource.read text = .ok source) :
    source.constructors = .ofBlocks source.blocks ∧
      IsBookReading source.blocks source.definitions text.toList := by
  rw [read_eq] at h
  unfold Parser.read at h
  simp only at h
  split at h
  · rename_i found behind hresult
    cases h
    have hblocks := leadingBlocks_of_gives hresult
    have htable := congrArg ConstructorTable.ofBlocks hblocks
    exact ⟨htable, isBookReading_of_gives htable hresult⟩
  · cases h

end InteractionGraph
