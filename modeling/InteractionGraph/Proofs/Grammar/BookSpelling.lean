import InteractionGraph.Grammar.Book
import InteractionGraph.Proofs.Grammar.Writable

/-!
# How books are spelled

The tokens of a book are those of its data blocks and then those of its definitions
(`DerivesBook`), and they are laid out as the tokens of a term are (`Spells`).

The one place where the text leaves more room than `Spells` does is the keyword `data`, which may
touch the name of the block: `dataList{}` declares what `data List{}` does.  So a data block has two
ways to be written, and a definition as many as its term has.

The names of constructors in the definitions are those of the table that the blocks make up.  A book
has a spelling exactly if it is `BookWritable`.
-/

namespace InteractionGraph.Grammar

/-! ## The tokens of a book -/

/-- What a constructor declaration has to be like to be written. -/
def DeclarationWritable (declaration : ConstructorDeclaration) : Prop :=
  IsName declaration.name ∧ ∀ field ∈ declaration.fields, IsName field

/-- What a data block has to be like to be written. -/
def BlockWritable (block : DataBlock) : Prop :=
  IsName block.name ∧ ∀ declaration ∈ block.constructors, DeclarationWritable declaration

/-- The tokens of a constructor declaration. -/
def declarationTokens (declaration : ConstructorDeclaration) : List Token :=
  ('#' :: declaration.name.toList) :: ['{'] :: (declaration.fields.map String.toList ++ [['}']])

/-- The word that a data block begins with. -/
def keyword : Token := ['d', 'a', 't', 'a']

/-- The tokens of a data block from its opening brace on. -/
def constructorsTokens (block : DataBlock) : List Token :=
  ['{'] :: (block.constructors.flatMap declarationTokens ++ [['}']])

/-- The tokens are a way to write the data block. -/
inductive DerivesBlock : DataBlock → List Token → Prop where
  | apart {block : DataBlock} :
    BlockWritable block →
      DerivesBlock block (keyword :: block.name.toList :: constructorsTokens block)
  | joined {block : DataBlock} :
    BlockWritable block →
      DerivesBlock block ((keyword ++ block.name.toList) :: constructorsTokens block)

/-- The tokens are a way to write the definition. -/
inductive DerivesDefinition (table : ConstructorTable) : String × Tree → List Token → Prop where
  | intro {name : String} {tree : Tree} {tokens : List Token} :
    IsName name → Derives table tree tokens →
      DerivesDefinition table (name, tree) (('@' :: name.toList) :: ['='] :: tokens)

/-- The tokens are a way to write the book. -/
inductive DerivesBook : List DataBlock → List (String × Tree) → List Token → Prop where
  | intro {blocks : List (DataBlock × List Token)}
    {definitions : List ((String × Tree) × List Token)} :
    (∀ block ∈ blocks, DerivesBlock block.1 block.2) →
      (∀ definition ∈ definitions,
        DerivesDefinition (.ofBlocks (blocks.map Prod.fst)) definition.1 definition.2) →
      DerivesBook (blocks.map Prod.fst) (definitions.map Prod.fst)
        (blocks.flatMap Prod.snd ++ definitions.flatMap Prod.snd)

/-- The text is a spelling of the book. -/
def IsBookSpelling (blocks : List DataBlock) (definitions : List (String × Tree))
    (text : List Char) : Prop :=
  ∃ tokens, DerivesBook blocks definitions tokens ∧ Spells tokens text

/-- The book can be written: its names are names, and its terms can be written with the constructors
that its data blocks declare. -/
def BookWritable (blocks : List DataBlock) (definitions : List (String × Tree)) : Prop :=
  (∀ block ∈ blocks, BlockWritable block) ∧
    ∀ definition ∈ definitions, IsName definition.1 ∧ Writable (.ofBlocks blocks) definition.2

/-! ## Books that can be written -/

variable {table : ConstructorTable} {block : DataBlock} {definition : String × Tree}
  {blocks : List DataBlock} {definitions : List (String × Tree)} {tokens : List Token}

theorem DerivesBlock.writable (h : DerivesBlock block tokens) : BlockWritable block := by
  cases h with
  | apart hblock => exact hblock
  | joined hblock => exact hblock

theorem DerivesDefinition.writable (h : DerivesDefinition table definition tokens) :
    IsName definition.1 ∧ Writable table definition.2 := by
  cases h with
  | intro hname htree => exact ⟨hname, htree.writable⟩

theorem DerivesBook.writable (h : DerivesBook blocks definitions tokens) :
    BookWritable blocks definitions := by
  cases h with
  | intro hblocks hdefinitions =>
    constructor
    · rintro _ hmem
      obtain ⟨written, hwritten, rfl⟩ := List.mem_map.mp hmem
      exact (hblocks written hwritten).writable
    · rintro _ hmem
      obtain ⟨written, hwritten, rfl⟩ := List.mem_map.mp hmem
      exact (hdefinitions written hwritten).writable

theorem exists_derivesDefinition (hname : IsName definition.1) (h : Writable table definition.2) :
    ∃ tokens, DerivesDefinition table definition tokens := by
  obtain ⟨tokens, htokens⟩ := exists_derives h
  exact ⟨_, .intro hname htokens⟩

/-- Things that can be written each can be written with their tokens. -/
theorem exists_writtenItems {α : Type} {Written : α → List Token → Prop} {items : List α}
    (h : ∀ item ∈ items, ∃ tokens, Written item tokens) :
    ∃ written : List (α × List Token), written.map Prod.fst = items ∧
      ∀ item ∈ written, Written item.1 item.2 := by
  induction items with
  | nil => exact ⟨[], rfl, by simp⟩
  | cons item items ih =>
    obtain ⟨⟨tokens, htokens⟩, hothers⟩ := List.forall_mem_cons.mp h
    obtain ⟨written, rfl, hwritten⟩ := ih hothers
    exact ⟨(item, tokens) :: written, rfl, List.forall_mem_cons.mpr ⟨htokens, hwritten⟩⟩

theorem exists_derivesBook (h : BookWritable blocks definitions) :
    ∃ tokens, DerivesBook blocks definitions tokens := by
  obtain ⟨hblocks, hdefinitions⟩ := h
  obtain ⟨writtenBlocks, rfl, hall⟩ :=
    exists_writtenItems fun block hblock => ⟨_, DerivesBlock.apart (hblocks block hblock)⟩
  obtain ⟨written, rfl, hall'⟩ := exists_writtenItems fun definition hdefinition =>
    exists_derivesDefinition (hdefinitions definition hdefinition).1
      (hdefinitions definition hdefinition).2
  exact ⟨_, .intro hall hall'⟩

/-- The books that have a spelling are those that can be written. -/
theorem bookWritable_iff_exists_isBookSpelling :
    BookWritable blocks definitions ↔ ∃ text, IsBookSpelling blocks definitions text := by
  constructor
  · intro h
    obtain ⟨tokens, htokens⟩ := exists_derivesBook h
    obtain ⟨text, htext⟩ := exists_spells tokens
    exact ⟨text, tokens, htokens, htext⟩
  · rintro ⟨text, tokens, htokens, _⟩
    exact htokens.writable

end InteractionGraph.Grammar
