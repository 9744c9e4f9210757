import InteractionGraph.Proofs.Grammar.Wildcard

/-!
# What is read is well formed

The nodes of a term that is read are writable, and more than that: the ids of its constructors and
of its arms do not just have some name, this name stands in the text (`NamesWritten`).  A node of
the term has its tokens among those of the text, so this is seen from the node alone.

The reference that takes the place of an unreadable term has a name of which no character is one of
names.  So no node of a term that is read is this reference, and a reader who finds it knows that
nothing was read (`Tree.readOrFailure_eq_failure_iff`).
-/

namespace InteractionGraph

namespace Grammar

open Parse

variable {table : ConstructorTable} {tree node : Tree} {tokens : List Token}

/-! ## Names behind marks -/

/-- The constructor, and each arm of the match, goes by letters that are written behind a mark. -/
def NamesWritten (table : ConstructorTable) (tokens : List Token) : Tree → Prop
  | .ctr id _ => ∃ letters, ('#' :: letters) ∈ tokens ∧ NamesConstructor table letters id
  | .mat _ arms =>
    ∀ arm ∈ arms, ∃ letters, ('#' :: letters) ∈ tokens ∧ NamesArm table letters arm.1
  | _ => True

theorem exists_letters_of_ctr {id : UInt32} {fields : List Tree}
    (h : Derives table (.ctr id fields) tokens) :
    ∃ letters, ('#' :: letters) ∈ tokens ∧ NamesConstructor table letters id := by
  generalize htree : Tree.ctr id fields = tree at h
  cases h with
  | ctr hname _ =>
    cases htree
    exact ⟨_, List.mem_cons_self, hname⟩
  | @app function _ _ _ _ hne _ =>
    obtain ⟨_, _, happ⟩ := function.exists_app_of_applyAll (mt List.map_eq_nil_iff.mp hne)
    cases htree.trans happ
  | era | lam _ _ | sup _ _ _ | dup _ _ _ _ _ | ref _ | var _ _ | mat _ _ _ | op2 _ _ | u32 _ =>
    cases htree

/-- The arms of a match that is written are marked among the tokens. -/
theorem IsWrittenMatch.exists_letters {scrutinee : Tree} {arms : List (UInt32 × Tree)}
    {written : List WrittenArm} (h : IsWrittenMatch table tokens scrutinee arms written) :
    ∀ arm ∈ arms, ∃ letters, ('#' :: letters) ∈ tokens ∧ NamesArm table letters arm.1 := by
  intro arm harm
  rw [h.arms_eq] at harm
  obtain ⟨found, hfound, rfl⟩ := List.mem_map.mp harm
  have hwritten : found ∈ written := mem_inOrder.mp hfound
  obtain ⟨head, -, hplace⟩ := h.place
  refine ⟨found.letters, hplace.subset ?_, h.names found hwritten⟩
  have hmark : ('#' :: found.letters) ∈ written.flatMap WrittenArm.tokens :=
    List.mem_flatMap.mpr ⟨found, hwritten, List.mem_cons_self⟩
  simp [hmark]

theorem WrittenWithin.namesWritten (h : WrittenWithin table node tokens) :
    NamesWritten table tokens node := by
  cases node with
  | ctr id fields =>
    obtain ⟨inner, hinner, hinfix⟩ := h
    obtain ⟨letters, hmark, hname⟩ := exists_letters_of_ctr hinner
    exact ⟨letters, hinfix.subset hmark, hname⟩
  | mat scrutinee arms =>
    obtain ⟨written, hwritten⟩ := exists_isWrittenMatch h
    exact hwritten.exists_letters
  | _ => trivial

/-! ## The stand-in for a term -/

theorem not_isName_failureName : ¬ IsName Tree.failureName :=
  fun h => absurd (h.2 '⊥' (by decide)) (by decide)

theorem NodeWritable.not_isFailure (h : NodeWritable table node) : node.isFailure = false := by
  cases node with
  | ref name id? =>
    obtain ⟨hname, rfl⟩ := h
    have hne : name ≠ Tree.failureName := by
      rintro rfl
      exact not_isName_failureName hname
    simpa [Tree.isFailure] using hne
  | _ => rfl

/-! ## Well-formed terms -/

/-- Each node is as the grammar has it, goes by names that are written among the tokens, and does
not take the place of a term. -/
structure WellFormed (table : ConstructorTable) (tokens : List Token) (tree : Tree) : Prop where
  writable : Writable table tree
  names : ∀ node ∈ tree.nodes, NamesWritten table tokens node
  not_isFailure : ∀ node ∈ tree.nodes, node.isFailure = false

theorem WrittenWithin.wellFormed (h : WrittenWithin table tree tokens) :
    WellFormed table tokens tree := by
  obtain ⟨part, hderives, hpart⟩ := h
  refine ⟨hderives.writable, fun node hnode => ?_, fun node hnode => ?_⟩
  · cases node with
    | app function argument => trivial
    | _ => exact ((hderives.writtenWithin hnode nofun).mono hpart).namesWritten
  · exact (hderives.writable node hnode).not_isFailure

end Grammar

open Grammar

/-! ## What is read -/

theorem Tree.readOrFailure_of_ok {text : String} {tree : Tree}
    (h : Tree.read .empty text = .ok tree) : Tree.readOrFailure text = tree := by
  unfold readOrFailure readOrFailureLogged
  rw [h]
  rfl

theorem Tree.readOrFailure_of_error {text : String} {report : Report}
    (h : Tree.read .empty text = .error report) : Tree.readOrFailure text = .failure := by
  unfold readOrFailure readOrFailureLogged
  rw [h]
  rfl

theorem Tree.not_isFailure_of_read {table : ConstructorTable} {text : String} {tree : Tree}
    (h : Tree.read table text = .ok tree) : tree.isFailure = false := by
  obtain ⟨tokens, rest, hderives, -, -⟩ := Tree.isReading_of_read h
  exact hderives.writtenWithin_self.wellFormed.not_isFailure tree tree.self_mem_nodes

/-- The stand-in is given exactly for the texts that cannot be read. -/
theorem Tree.isFailure_readOrFailure_iff {text : String} :
    (Tree.readOrFailure text).isFailure = true ↔
      ∃ report, Tree.read .empty text = .error report := by
  cases h : Tree.read .empty text with
  | ok tree => simp [readOrFailure_of_ok h, not_isFailure_of_read h]
  | error report => simp [readOrFailure_of_error h, isFailure_failure]

theorem Tree.readOrFailure_eq_failure_iff {text : String} :
    Tree.readOrFailure text = .failure ↔ ∃ report, Tree.read .empty text = .error report := by
  constructor
  · intro h
    exact isFailure_readOrFailure_iff.mp (h ▸ isFailure_failure)
  · rintro ⟨report, h⟩
    exact readOrFailure_of_error h

/-- The terms that are read, alone or in a book, are well formed, and go by the names that are
written in the text.  So the stand-in for a term is given exactly for a text that cannot be read,
and for any other text it is the term. -/
theorem wellFormed_of_read (text : String) :
    (∀ table tree, Tree.read table text = .ok tree → ∃ tokens rest,
      Scans tokens text.toList rest ∧ Room rest [] ∧ WellFormed table tokens tree) ∧
    (∀ source, BookSource.read text = .ok source → ∃ tokens rest,
      Scans tokens text.toList rest ∧ Room rest [] ∧
        ∀ definition ∈ source.definitions,
          WellFormed source.constructors tokens definition.2) ∧
    (Tree.readOrFailure text = .failure ↔ ∃ report, Tree.read .empty text = .error report) ∧
    ((Tree.readOrFailure text).isFailure = true ↔
      ∃ report, Tree.read .empty text = .error report) ∧
    ∀ tree, Tree.read .empty text = .ok tree → Tree.readOrFailure text = tree := by
  refine ⟨fun table tree h => ?_, fun source h => ?_, Tree.readOrFailure_eq_failure_iff,
    Tree.isFailure_readOrFailure_iff, fun tree => Tree.readOrFailure_of_ok⟩
  · obtain ⟨tokens, rest, hderives, hscans, hroom⟩ := Tree.isReading_of_read h
    exact ⟨tokens, rest, hscans, hroom, hderives.writtenWithin_self.wellFormed⟩
  · obtain ⟨htable, tokens, rest, hderives, hscans, hroom⟩ := BookSource.isReading_of_read h
    rw [htable]
    exact ⟨tokens, rest, hscans, hroom,
      fun definition hmem => (hderives.writtenWithin hmem).wellFormed⟩

/-- A constructor that goes by a number, and a book of one definition that refers to itself. -/
theorem wellFormed_of_read_number :
    Tree.read .empty "#7{@f}" = .ok (.ctr 7 [.ref "f" none]) ∧
      (∃ tokens rest, Scans tokens "#7{@f}".toList rest ∧ Room rest [] ∧
        WellFormed .empty tokens (.ctr 7 [.ref "f" none])) ∧
      Tree.readOrFailure "#7{@f}" = .ctr 7 [.ref "f" none] ∧
      BookSource.read "@f=@f" = .ok ⟨[], [("f", .ref "f" none)], .ofBlocks []⟩ ∧
      ∃ tokens rest, Scans tokens "@f=@f".toList rest ∧ Room rest [] ∧
        ∀ definition ∈ [("f", Tree.ref "f" none)],
          WellFormed (.ofBlocks []) tokens definition.2 := by
  have hf : IsName "f" := ⟨by decide, by decide⟩
  have hfields : ∀ field ∈ [(Tree.ref "f" none, [['@', 'f']])],
      Derives .empty field.1 field.2 := by
    simpa using .ref hf
  have hterm : Derives .empty (.ctr 7 [.ref "f" none]) [['#', '7'], ['{'], ['@', 'f'], ['}']] :=
    .ctr ⟨by decide, by decide +kernel⟩ hfields
  have htermText : Spells [['#', '7'], ['{'], ['@', 'f'], ['}']] "#7{@f}".toList :=
    .cons .nil (by decide) (.cons .nil (by decide) (.cons .nil (by decide)
      (.cons .nil (by decide) (.nil .nil))))
  have hdefinitions : ∀ definition ∈ [(("f", Tree.ref "f" none), [['@', 'f'], ['='], ['@', 'f']])],
      DerivesDefinition (.ofBlocks []) definition.1 definition.2 := by
    simpa using .intro hf (.ref hf)
  have hbook := DerivesBook.intro (fun block hblock => absurd hblock List.not_mem_nil) hdefinitions
  have hbookText : Spells [['@', 'f'], ['='], ['@', 'f']] "@f=@f".toList :=
    .cons .nil (by decide) (.cons .nil (by decide) (.cons .nil (by decide) (.nil .nil)))
  have hread := Tree.read_of_isSpelling ⟨_, hterm, htermText⟩
  have hreadBook := BookSource.read_of_isBookSpelling ⟨_, hbook, hbookText⟩
  obtain ⟨hwellFormed, -, -, -, htree⟩ := wellFormed_of_read "#7{@f}"
  obtain ⟨-, hwellFormedBook, -⟩ := wellFormed_of_read "@f=@f"
  exact ⟨hread, hwellFormed _ _ hread, htree _ hread, hreadBook, hwellFormedBook _ hreadBook⟩

end InteractionGraph
