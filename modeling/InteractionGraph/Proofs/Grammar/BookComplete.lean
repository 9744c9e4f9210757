import InteractionGraph.Proofs.Grammar.BookSpelling
import InteractionGraph.Proofs.Grammar.Complete

/-!
# Every spelling of a book is read

The loops of the parser of books are gone through from the inside to the outside: the fields of a
constructor, the constructors of a block, the blocks, and the definitions.  The inner ones have a
closing brace, and are lists as those of terms are.  The outer ones have none.  They end because
what follows does not begin like another item: a definition or the end does not begin with the
keyword, and the end does not begin with `@`.

The term of a definition ends where the next definition begins, since `Readable` holds whatever
tokens follow.  What is left is the table.  It is made up from a first reading of the same text,
which stops at the first definition with the same blocks (`leadingBlocks_of_isBookSpelling`).
-/

namespace InteractionGraph

namespace Grammar

open Parse Parser Text

variable {table : ConstructorTable} {text rest : List Char} {block : DataBlock}
  {definition : String × Tree} {tokens more : List Token}

/-! ## Declarations -/

/-- A field is an item of a list. -/
theorem readable_field {name : String} (hname : IsName name) :
    ReadableItem (fun _ => field blank) name [name.toList] := by
  intro more text h
  obtain ⟨after, hroom, hstops, hafter, hlt⟩ := exists_word hname.1 hname.2 h
  obtain ⟨c, cs, hcs⟩ := List.exists_cons_of_ne_nil hname.1
  have hopens : Opens c := .inr (hname.2 c (by rw [hcs]; exact List.mem_cons_self))
  have hbegins : Reads blank text () (c :: (cs ++ after)) := by
    rw [hcs] at hroom
    exact hroom
  refine ⟨after, ⟨⟨c, _, hbegins, hopens⟩, hlt, ?_⟩, hafter⟩
  intro _ _
  exact hroom.bind (reads_name hname hstops)

/-- A constructor declaration is an item of a list. -/
theorem readable_constructorDeclaration {declaration : ConstructorDeclaration}
    (h : DeclarationWritable declaration) :
    ReadableItem (fun _ => constructorDeclaration blank) declaration
      (declarationTokens declaration) := by
  obtain ⟨hname, hfields⟩ := h
  intro more text h
  simp only [declarationTokens, List.cons_append, List.append_assoc, List.nil_append] at h
  have hopens : Opens '#' := by decide
  obtain ⟨t₁, hmark, hstops, h₁, hlt₁⟩ := exists_marked hopens hname.1 hname.2 h
  obtain ⟨t₂, hopen, h₂, hlt₂⟩ := exists_symbol (by decide) h₁
  rw [List.map_eq_flatMap] at h₂
  have hitems : ∀ name ∈ declaration.fields,
      ReadableItem (fun _ => field blank) name [name.toList] :=
    fun name hmem => readable_field (hfields name hmem)
  obtain ⟨rest, hlist, hrest, hlt₃⟩ :=
    exists_closedBy (by decide) (Nat.zero_le _) hitems h₂
  rw [List.map_id'] at hlist
  refine ⟨rest, ⟨⟨'#', _, hmark, hopens⟩, by omega, ?_⟩, hrest⟩
  intro _ _
  refine .named (.bind hmark (.bind (.char '#' _) (.bind (reads_name hname hstops) ?_)))
  refine .bind hopen (.bind (.char '{' t₂) (.bind (hlist _ (Nat.lt_succ_self _)) ?_))
  exact .pure _ rest

/-! ## Data blocks -/

/-- Behind the room before a data block, the text goes on with the keyword, and then with the name
of the block, whether there is a gap between them or not. -/
theorem exists_keyword (hblock : DerivesBlock block tokens) (h : Spells (tokens ++ more) text) :
    ∃ after, Reads blank text () (keyword ++ after) ∧
      Spells (block.name.toList :: (constructorsTokens block ++ more)) after ∧
      after.length < text.length := by
  have hletters : ∀ c ∈ keyword, isNameChar c = true := by decide
  cases hblock with
  | apart =>
    obtain ⟨after, hroom, _, hafter, hlt⟩ := exists_word (by decide) hletters h
    exact ⟨after, hroom, hafter, hlt⟩
  | joined hwritable =>
    obtain ⟨hname, _⟩ := hwritable
    have hboth : ∀ c ∈ keyword ++ block.name.toList, isNameChar c = true :=
      List.forall_mem_append.mpr ⟨hletters, hname.2⟩
    obtain ⟨after, hroom, hapart, hafter, hle⟩ :=
      exists_reads_blank (solid_word (by simp [keyword]) hboth) h
    have hstops : Stops isNameChar after := by
      rw [← List.nil_append (keyword ++ _)] at hapart
      exact hapart.stops (by simp [keyword]) hboth
    rw [List.append_assoc] at hroom
    have hname' : Apart block.name.toList after := apart_of_stops hname.2 hstops
    refine ⟨block.name.toList ++ after, hroom, .cons .nil hname' hafter, ?_⟩
    simp only [keyword, List.length_append, List.length_cons] at hle ⊢
    omega

theorem exists_reads_dataBlock (hblock : DerivesBlock block tokens)
    (h : Spells (tokens ++ more) text) :
    ∃ rest, Reads dataBlock text block rest ∧ rest.length < text.length ∧ Spells more rest := by
  obtain ⟨hname, hconstructors⟩ := hblock.writable
  obtain ⟨t₁, hkeyword, h₁, hlt₁⟩ := exists_keyword hblock h
  simp only [constructorsTokens, List.cons_append, List.append_assoc, List.nil_append] at h₁
  obtain ⟨t₂, hroom, hstops, h₂, hlt₂⟩ := exists_word hname.1 hname.2 h₁
  obtain ⟨t₃, hopen, h₃, hlt₃⟩ := exists_symbol (by decide) h₂
  have hitems : ∀ declaration ∈ block.constructors,
      ReadableItem (fun _ => constructorDeclaration blank) declaration
        (declarationTokens declaration) :=
    fun declaration hmem => readable_constructorDeclaration (hconstructors declaration hmem)
  obtain ⟨rest, hlist, hrest, hlt₄⟩ :=
    exists_closedBy (by decide) (Nat.zero_le _) hitems h₃
  rw [List.map_id'] at hlist
  refine ⟨rest, ?_, by omega, hrest⟩
  refine .named (.bind hkeyword (.bind (.chars keyword t₁) (.bind hroom ?_)))
  refine .bind (reads_name hname hstops) (.bind hopen (.bind (.char '{' t₃) ?_))
  exact .bind (hlist _ (Nat.lt_succ_self _)) (.pure _ rest)

/-- No data block is read where the text does not go on with the first letter of the keyword. -/
theorem refuses_dataBlock {after : List Char} (hroom : Reads blank text () after)
    (hafter : 'd' ∉ after.head?) : Refuses dataBlock text := by
  unfold dataBlock dataBlockWith
  exact .named (hroom.bind_refuses (Refuses.char hafter).bind.bind)

/-! ## Definitions -/

theorem exists_reads_definition (hdefinition : DerivesDefinition table definition tokens)
    (h : Spells (tokens ++ more) text) :
    ∃ rest, Reads (Grammar.definition table) text definition rest ∧ rest.length < text.length ∧
      Spells more rest := by
  cases hdefinition with
  | intro hname htree =>
    have hopens : Opens '@' := by decide
    obtain ⟨t₁, hmark, hstops, h₁, hlt₁⟩ := exists_marked hopens hname.1 hname.2 h
    obtain ⟨t₂, hequals, h₂, hlt₂⟩ := exists_symbol (by decide) h₁
    obtain ⟨rest, hread, hrest⟩ := htree.readable more t₂ h₂
    have hshorter := hread.shorter
    refine ⟨rest, ?_, by omega, hrest⟩
    refine .named (.bind hmark (.bind (.char '@' _) (.bind (reads_name hname hstops) ?_)))
    exact .bind hequals (.bind (.char '=' t₂) (.bind hread.termWith (.pure _ rest)))

theorem refuses_definition (h : Spells [] text) : Refuses (Grammar.definition table) text := by
  unfold Grammar.definition definitionWith
  exact .named ((reads_end h).bind_refuses (Refuses.char (by simp)).bind)

/-! ## Loops without an end of their own -/

/-- Items are read one after the other, up to where none begins. -/
theorem exists_readsMany_of_forall {α : Type} {p : Parser α} {Written : α → List Token → Prop}
    {items : List (α × List Token)}
    (hitem : ∀ {item tokens more text}, Written item tokens → Spells (tokens ++ more) text →
      ∃ rest, Reads p text item rest ∧ rest.length < text.length ∧ Spells more rest)
    (hend : ∀ {text}, Spells more text → Refuses p text)
    (hitems : ∀ item ∈ items, Written item.1 item.2)
    (h : Spells (items.flatMap Prod.snd ++ more) text) :
    ∃ rest, ReadsMany p text (items.map Prod.fst) rest ∧ Spells more rest := by
  induction items generalizing text with
  | nil => exact ⟨text, .nil (hend h), h⟩
  | cons item items ih =>
    obtain ⟨hfirst, hothers⟩ := List.forall_mem_cons.mp hitems
    rw [List.flatMap_cons, List.append_assoc] at h
    obtain ⟨middle, hread, hlt, hmiddle⟩ := hitem hfirst h
    obtain ⟨rest, hmany, hrest⟩ := ih hothers hmiddle
    exact ⟨rest, .cons hread hlt hmany, hrest⟩

/-- No data block begins where the definitions do, or where there are none. -/
theorem refuses_dataBlock_of_definitions {definitions : List ((String × Tree) × List Token)}
    (hdefinitions : ∀ definition ∈ definitions,
      DerivesDefinition table definition.1 definition.2)
    (h : Spells (definitions.flatMap Prod.snd) text) : Refuses dataBlock text := by
  cases definitions with
  | nil => exact refuses_dataBlock (reads_end h) (by simp)
  | cons definition definitions =>
    obtain ⟨definition, tokens⟩ := definition
    cases hdefinitions _ List.mem_cons_self with
    | intro hname htree =>
      have hopens : Opens '@' := by decide
      obtain ⟨after, hmark, -⟩ := exists_marked hopens hname.1 hname.2 h
      exact refuses_dataBlock hmark (by simp)

/-! ## Whole texts -/

variable {blocks : List DataBlock} {definitions : List (String × Tree)}

/-- A spelling of a book is its blocks, and then its definitions up to the end. -/
theorem exists_readsMany_of_isBookSpelling (h : IsBookSpelling blocks definitions text) :
    ∃ middle rest, ReadsMany dataBlock text blocks middle ∧
      ReadsMany (Grammar.definition (.ofBlocks blocks)) middle definitions rest ∧
      Spells [] rest := by
  obtain ⟨tokens, htokens, htext⟩ := h
  cases htokens with
  | @intro writtenBlocks written hblocks hdefinitions =>
    obtain ⟨middle, hmany, hmiddle⟩ := exists_readsMany_of_forall exists_reads_dataBlock
      (refuses_dataBlock_of_definitions hdefinitions) hblocks htext
    rw [← List.append_nil (written.flatMap Prod.snd)] at hmiddle
    obtain ⟨rest, hmany', hrest⟩ := exists_readsMany_of_forall exists_reads_definition
      refuses_definition hdefinitions hmiddle
    exact ⟨middle, rest, hmany, hmany', hrest⟩

theorem reads_bookText (h : IsBookSpelling blocks definitions text) :
    Reads (bookText (.ofBlocks blocks)) text (blocks, definitions) [] := by
  obtain ⟨middle, rest, hblocks, hdefinitions, hrest⟩ := exists_readsMany_of_isBookSpelling h
  unfold bookText bookTextWith
  refine hblocks.many.bind (hdefinitions.many.bind ?_)
  exact (reads_end hrest).bind (Reads.endOfInput.bind (.pure _ []))

/-- The first reading takes the blocks of the book, and no more. -/
theorem leadingBlocks_of_isBookSpelling (h : IsBookSpelling blocks definitions text) :
    BookSource.leadingBlocks text = blocks := by
  obtain ⟨middle, _, hblocks, -⟩ := exists_readsMany_of_isBookSpelling h
  obtain ⟨behind, hbehind⟩ := hblocks.many 0
  unfold BookSource.leadingBlocks
  rw [Cursor.ofText, hbehind]

end Grammar

open Grammar Parse

variable {blocks : List DataBlock} {definitions : List (String × Tree)}

/-- Reading a book without the journal: its leading blocks give the table that the whole text is
read with. -/
theorem BookSource.read_eq (text : String) :
    BookSource.read text =
      ((bookText (.ofBlocks (leadingBlocks text.toList))).read text.toList).map
        fun found => ⟨found.1, found.2, .ofBlocks (leadingBlocks text.toList)⟩ := by
  unfold BookSource.read readLogged
  simp only [Logged.value_bind, ConstructorTable.value_ofBlocksLogged]
  cases (bookText (.ofBlocks (leadingBlocks text.toList))).read text.toList <;> rfl

theorem BookSource.read_of_isBookSpelling {text : String}
    (h : IsBookSpelling blocks definitions text.toList) :
    BookSource.read text = .ok ⟨blocks, definitions, .ofBlocks blocks⟩ := by
  obtain ⟨behind, hbehind⟩ := reads_bookText h 0
  have hresult : (bookText (.ofBlocks blocks) (.ofText text.toList)).result? =
      some ((blocks, definitions), ⟨behind, []⟩) := hbehind
  rw [read_eq, leadingBlocks_of_isBookSpelling h]
  unfold Parser.read
  simp only [hresult, Except.map]

/-- The books that can be written are those that have a spelling, and every spelling of a book is
read as this book: its data blocks as they were declared, its definitions in their order, and the
table that the blocks make up, merged one after the other.  The gaps between the tokens are free, as
is all that is free in the terms. -/
theorem BookSource.reads_every_spelling (blocks : List DataBlock)
    (definitions : List (String × Tree)) :
    (BookWritable blocks definitions ↔ ∃ text, IsBookSpelling blocks definitions text) ∧
      ∀ text : String, IsBookSpelling blocks definitions text.toList →
        BookSource.read text = .ok ⟨blocks, definitions, .ofBlocks blocks⟩ :=
  ⟨bookWritable_iff_exists_isBookSpelling, fun _ h => read_of_isBookSpelling h⟩

/-- Two blocks, the first of which is written without a gap, and two definitions behind a comment,
which stand without a gap as well.  The constructor of the second block has the id 1. -/
theorem BookSource.reads_every_spelling_commented :
    IsBookSpelling [⟨"A", [⟨"X", []⟩]⟩, ⟨"B", [⟨"Y", ["f", "g"]⟩]⟩]
        [("m", .ctr 1 [.ref "n" none]), ("n", .era)]
        "dataA{#X{}}data B{#Y{f g}}//\n@m=#Y{@n}@n=*".toList ∧
      BookSource.read "dataA{#X{}}data B{#Y{f g}}//\n@m=#Y{@n}@n=*" =
        .ok ⟨[⟨"A", [⟨"X", []⟩]⟩, ⟨"B", [⟨"Y", ["f", "g"]⟩]⟩],
          [("m", .ctr 1 [.ref "n" none]), ("n", .era)],
          .ofBlocks [⟨"A", [⟨"X", []⟩]⟩, ⟨"B", [⟨"Y", ["f", "g"]⟩]⟩]⟩ := by
  have hA : DerivesBlock ⟨"A", [⟨"X", []⟩]⟩
      [['d', 'a', 't', 'a', 'A'], ['{'], ['#', 'X'], ['{'], ['}'], ['}']] :=
    .joined ⟨⟨by decide, by decide⟩, by simp [DeclarationWritable, IsName]; decide⟩
  have hB : DerivesBlock ⟨"B", [⟨"Y", ["f", "g"]⟩]⟩
      [['d', 'a', 't', 'a'], ['B'], ['{'], ['#', 'Y'], ['{'], ['f'], ['g'], ['}'], ['}']] :=
    .apart ⟨⟨by decide, by decide⟩, by simp [DeclarationWritable, IsName]; decide⟩
  have hY : NamesConstructor
      (.ofBlocks [⟨"A", [⟨"X", []⟩]⟩, ⟨"B", [⟨"Y", ["f", "g"]⟩]⟩]) ['Y'] 1 :=
    ⟨by decide, by decide +kernel⟩
  generalize htable : ConstructorTable.ofBlocks
    [⟨"A", [⟨"X", []⟩]⟩, ⟨"B", [⟨"Y", ["f", "g"]⟩]⟩] = table at hY
  have hfields : ∀ field ∈ [(Tree.ref "n" none, [['@', 'n']])],
      Derives table field.1 field.2 := by
    simpa using .ref ⟨by decide, by decide⟩
  have hm : DerivesDefinition table ("m", .ctr 1 [.ref "n" none])
      [['@', 'm'], ['='], ['#', 'Y'], ['{'], ['@', 'n'], ['}']] :=
    .intro ⟨by decide, by decide⟩ (.ctr hY hfields)
  have hn : DerivesDefinition table ("n", .era) [['@', 'n'], ['='], ['*']] :=
    .intro ⟨by decide, by decide⟩ .era
  have hblocks : ∀ block ∈ [((_ : DataBlock), (_ : List Token)), (_, _)],
      DerivesBlock block.1 block.2 :=
    List.forall_mem_cons.mpr ⟨hA, List.forall_mem_singleton.mpr hB⟩
  have hdefinitions : ∀ definition ∈ [((_ : String × Tree), (_ : List Token)), (_, _)],
      DerivesDefinition table definition.1 definition.2 :=
    List.forall_mem_cons.mpr ⟨hm, List.forall_mem_singleton.mpr hn⟩
  rw [← htable] at hdefinitions ⊢
  have htokens := DerivesBook.intro hblocks hdefinitions
  have hcomment : IsGap ['/', '/', '\n'] := @IsGap.comment [] [] (by decide) .nil
  have hsecond : Spells
      [['@', 'm'], ['='], ['#', 'Y'], ['{'], ['@', 'n'], ['}'], ['@', 'n'], ['='], ['*']]
      "//\n@m=#Y{@n}@n=*".toList :=
    .cons hcomment (by decide) (.cons .nil (by decide) (.cons .nil (by decide)
      (.cons .nil (by decide) (.cons .nil (by decide) (.cons .nil (by decide)
      (.cons .nil (by decide) (.cons .nil (by decide) (.cons .nil (by decide)
      (.nil .nil)))))))))
  have hspace : IsGap [' '] := .blank (by decide) .nil
  have htext : Spells
      [['d', 'a', 't', 'a', 'A'], ['{'], ['#', 'X'], ['{'], ['}'], ['}'], ['d', 'a', 't', 'a'],
        ['B'], ['{'], ['#', 'Y'], ['{'], ['f'], ['g'], ['}'], ['}'], ['@', 'm'], ['='], ['#', 'Y'],
        ['{'], ['@', 'n'], ['}'], ['@', 'n'], ['='], ['*']]
      "dataA{#X{}}data B{#Y{f g}}//\n@m=#Y{@n}@n=*".toList :=
    .cons .nil (by decide) (.cons .nil (by decide) (.cons .nil (by decide)
      (.cons .nil (by decide) (.cons .nil (by decide) (.cons .nil (by decide)
      (.cons .nil (by decide) (.cons hspace (by decide) (.cons .nil (by decide)
      (.cons .nil (by decide) (.cons .nil (by decide) (.cons .nil (by decide)
      (.cons hspace (by decide) (.cons .nil (by decide) (.cons .nil (by decide)
      hsecond))))))))))))))
  have hspelling : IsBookSpelling _ _ _ := ⟨_, htokens, htext⟩
  exact ⟨hspelling, (BookSource.reads_every_spelling _ _).2 _ hspelling⟩

end InteractionGraph
