import InteractionGraph.Proofs.Grammar.BookComplete
import InteractionGraph.Proofs.Grammar.Passage

/-!
# References from the text to the heap

A reference goes through three hands.  The parser leaves it without an id, assembling the book puts
the id there, and writing the definition stores the id in a cell.  `Book.references_of_read` says
what comes of it: each reference that a definition of the book brings into a heap is written in the
text, at the place that belongs to the cell, and has the id of the definition of the name that
stands there.  And since no reference is left out, none of them can be the reason why a definition
is not written.

Ids have 32 bits.  In a book with more definitions than that, the id would be that of another
definition, which is why the last of the statements about a reference has a bound.
-/

namespace InteractionGraph

open Grammar Parse

/-! ## Heaps that gain references -/

namespace Heap.Gains

variable {refers allowed : Nat → Word → Prop} {before between after : Heap}

theorem refl (h : before.Valid) : before.Gains refers before :=
  ⟨h, fun _ _ hcell _ => .inl hcell⟩

theorem trans (hfirst : before.Gains refers between) (hsecond : between.Gains refers after) :
    before.Gains refers after := by
  refine ⟨hsecond.valid, ?_⟩
  intro address word hcell htag
  rcases hsecond.cells address word hcell htag with hbetween | hrefers
  · exact hfirst.cells address word hbetween htag
  · exact .inr hrefers

theorem mono (h : before.Gains refers after)
    (himp : ∀ address word, refers address word → allowed address word) :
    before.Gains allowed after :=
  ⟨h.valid, fun address word hcell htag =>
    (h.cells address word hcell htag).imp_right (himp address word)⟩

/-- Fresh cells refer to nothing. -/
theorem grow {heap : Heap} {count : Nat} (h : (heap.grow count).Valid) :
    heap.Gains refers (heap.grow count) := by
  refine ⟨h, fun address word hcell htag => .inl ?_⟩
  refine (getElem?_or_void_of_grow hcell).resolve_right ?_
  rintro rfl
  rw [Word.tag?_void] at htag
  cases htag

end Heap.Gains

theorem HeapAction.refers_alloc {refers : Nat → Word → Prop} {heap : Heap} (hvalid : heap.Valid)
    (count : Nat) : Refers refers heap (HeapAction.alloc count heap) := by
  cases hrun : HeapAction.alloc count heap with
  | ok address left =>
    have halloc := of_ofChange_eq_ok hrun
    obtain ⟨-, rfl⟩ := of_alloc_eq_ok hrun
    exact .ok address (.grow (Heap.valid_of_alloc hvalid halloc))
  | error error left =>
    obtain ⟨rfl, rfl⟩ := of_alloc_eq_error hrun
    exact .refused (.refl hvalid) (.outOfMemory ..)

/-! ## References of a book that is read -/

theorem Grammar.Derives.unlinked {table : ConstructorTable} {tree : Tree} {tokens : List Token}
    (h : Derives table tree tokens) : tree.Unlinked := by
  intro name id hmem
  have hwritable := h.writable _ hmem
  cases hwritable.2

/-- The text is cut into the tokens of data blocks and those of definitions. -/
structure IsWrittenBook (blocks : List (DataBlock × List Token))
    (written : List ((String × Tree) × List Token)) (text : List Char) : Prop where
  scans : ∃ rest, Scans (blocks.flatMap Prod.snd ++ written.flatMap Prod.snd) text rest ∧
    Room rest []
  derivesBlock : ∀ block ∈ blocks, DerivesBlock block.1 block.2
  derivesDefinition : ∀ definition ∈ written,
    DerivesDefinition (.ofBlocks (blocks.map Prod.fst)) definition.1 definition.2

theorem exists_isWrittenBook {sources : List DataBlock} {definitions : List (String × Tree)}
    {text : List Char} (h : IsBookReading sources definitions text) :
    ∃ blocks written, IsWrittenBook blocks written text ∧ definitions = written.map Prod.fst := by
  obtain ⟨tokens, rest, hderives, hscans, hroom⟩ := h
  cases hderives with
  | @intro blocks written hblocks hdefinitions =>
    exact ⟨blocks, written, ⟨⟨rest, hscans, hroom⟩, hblocks, hdefinitions⟩, rfl⟩

namespace Book

variable {book : Book} {text : String}

/-- The cells that the definition of an id takes, the one that it is written into included. -/
def room (book : Book) (id : UInt32) : Nat := 1 + (book.tree? id).elim 0 Tree.cost

/-- The word in a cell is that of a reference in the text: it stands in the definition of the given
id, the cell is its cell if the definition is written into the cell `host`, and the word has the id
of the definition whose name stands there. -/
def RefersAsWritten (book : Book) (table : ConstructorTable)
    (written : List ((String × Tree) × List Token)) (id : UInt32) (host address : Nat)
    (word : Word) : Prop :=
  ∃ owner tree tokens front name back inner target,
    written[id.toNat]? = some ((owner, tree), ('@' :: owner.toList) :: ['='] :: tokens) ∧
      tokens = front ++ ('@' :: name.toList) :: back ∧
      Passage.Contains table ⟨tree, tokens, host, host + 1⟩ front
        ⟨.ref name none, ['@' :: name.toList], address, inner⟩ ∧
      word = .pack .ref 0 target.toNat ∧ target.toNat < book.size ∧
      book.id? name = some target ∧ (book.size ≤ 2 ^ 32 → book.name? target = some name)

/-- A book that is read is made up of the definitions in its text. -/
theorem read_eq_ok_iff : Book.read text = .ok book ↔
    ∃ source, BookSource.read text = .ok source ∧
      assemble source.definitions source.constructors = .ok book := by
  have hvalue : ∀ source : BookSource,
      (assembleLogged source.definitions source.constructors).value =
        assemble source.definitions source.constructors := by
    intro source
    unfold assembleLogged
    cases assemble source.definitions source.constructors <;> rfl
  unfold Book.read readLogged
  rw [Logged.value_bind, show (BookSource.readLogged text).value = BookSource.read text from rfl]
  cases BookSource.read text with
  | error report => simp
  | ok source =>
    simp only [Logged.value_bind, hvalue]
    cases hassemble : assemble source.definitions source.constructors <;> simp [hassemble]

/-- The book has the definitions that are written, and each of their references has the id of a
definition of its name. -/
structure IsLinked (book : Book) (table : ConstructorTable)
    (written : List ((String × Tree) × List Token)) : Prop where
  derives : ∀ definition ∈ written, DerivesDefinition table definition.1 definition.2
  definitions : ∀ place : Nat, book.definitions[place]? =
    written[place]?.map fun definition =>
      (definition.1.1, definition.1.2.withIds book.id?)
  linked : ∀ definition ∈ written, ∀ name ∈ definition.1.2.references, (book.id? name).isSome
  target : ∀ name target, book.id? name = some target →
    target.toNat < book.size ∧ (book.size ≤ 2 ^ 32 → book.name? target = some name)

variable {table : ConstructorTable} {written : List ((String × Tree) × List Token)}

theorem isLinked_of_assemble {constructors : ConstructorTable}
    (hderives : ∀ definition ∈ written, DerivesDefinition table definition.1 definition.2)
    (h : assemble (written.map Prod.fst) constructors = .ok book) :
    book.IsLinked table written := by
  obtain ⟨hnodup, hdefined⟩ := nodup_and_defined_of_assemble h
  obtain ⟨ids, hassemble, hplaces, hmem⟩ := exists_assemble_eq constructors hnodup hdefined
  obtain rfl : withIds ids (written.map Prod.fst) constructors = book :=
    Except.ok.inj (hassemble.symm.trans h)
  have hsize : (withIds ids (written.map Prod.fst) constructors).size = written.length := by
    simp [withIds, size]
  refine ⟨hderives, ?_, ?_, ?_⟩
  · intro place
    simp only [withIds, List.getElem?_toArray, List.getElem?_map, Option.map_map]
    rfl
  · intro definition hdefinition name hname
    have hknown := hdefined definition.1 (List.mem_map_of_mem hdefinition) name hname
    exact Std.TreeMap.mem_iff_isSome_getElem?.mp ((hmem name).mpr hknown)
  · intro name target htarget
    rw [hsize]
    have hknown : name ∈ ids := by
      rw [Std.TreeMap.mem_iff_isSome_getElem?]
      exact Option.isSome_of_eq_some htarget
    obtain ⟨place, hplace⟩ := List.mem_iff_getElem?.mp ((hmem name).mp hknown)
    obtain ⟨hlt, -⟩ := List.getElem?_eq_some_iff.mp hplace
    rw [names, List.length_map, List.length_map] at hlt
    obtain rfl : target = UInt32.ofNat place :=
      Option.some.inj (htarget.symm.trans (hplaces place name hplace))
    have hle : (UInt32.ofNat place).toNat ≤ place := by
      rw [UInt32.toNat_ofNat']
      exact Nat.mod_le _ _
    refine ⟨Nat.lt_of_le_of_lt hle hlt, fun hcount => ?_⟩
    rw [name?_withIds, UInt32.toNat_ofNat_of_lt' (Nat.lt_of_lt_of_le hlt hcount), hplace]

namespace IsLinked

variable {heap : Heap} {id : UInt32} {ids : List UInt32}

theorem size_eq (h : book.IsLinked table written) : book.size = written.length := by
  refine Nat.le_antisymm ?_ ?_
  · have hnone := h.definitions written.length
    rw [List.getElem?_eq_none (Nat.le_refl _)] at hnone
    exact Array.getElem?_eq_none_iff.mp hnone
  · have hnone := h.definitions book.size
    rw [size, Array.getElem?_eq_none (Nat.le_refl _), eq_comm, Option.map_eq_none_iff] at hnone
    exact List.getElem?_eq_none_iff.mp hnone

/-- Writing a definition takes its cells. -/
theorem size_of_inject {root : Word} {left : Heap} (hrun : book.inject id heap = .ok root left) :
    left.size = heap.size + book.room id := by
  rw [inject_eq] at hrun
  unfold room tree?
  cases hfound : book.definitions[id.toNat]? with
  | none =>
    rw [hfound] at hrun
    cases hrun
  | some definition =>
    rw [hfound] at hrun
    obtain ⟨host, between, halloc, hunit⟩ := bind_eq_ok_iff.mp hrun
    obtain ⟨-, rfl⟩ := HeapAction.of_alloc_eq_ok halloc
    rw [Tree.size_of_injectAt hunit, Heap.size_grow, Nat.add_assoc]
    rfl

theorem refers_inject (h : book.IsLinked table written) (hvalid : heap.Valid)
    (hid : id.toNat < book.size) :
    HeapAction.Refers (book.RefersAsWritten table written id heap.size) heap
      (book.inject id heap) := by
  have hlt : id.toNat < written.length := h.size_eq ▸ hid
  obtain ⟨⟨⟨owner, tree⟩, tokens⟩, hwritten⟩ : ∃ definition, written[id.toNat]? = some definition :=
    ⟨_, List.getElem?_eq_getElem hlt⟩
  have hmem := List.mem_of_getElem? hwritten
  have hfound := h.definitions id.toNat
  rw [hwritten, Option.map_some] at hfound
  rw [inject_eq, hfound]
  refine (HeapAction.refers_alloc hvalid 1).bind fun host between halloc hbetween => ?_
  obtain ⟨rfl, rfl⟩ := HeapAction.of_alloc_eq_ok halloc
  cases h.derives _ hmem with
  | intro hname htree =>
    have hhost : heap.size < (heap.grow 1).size := by simp
    have hunit := Tree.refers_injectAt htree.unlinked (h.linked _ hmem) hbetween.valid hhost
    refine hunit.mono fun hgains => hbetween.trans (hgains.mono ?_)
    rintro address word ⟨name, target, htarget, rfl, hstep⟩
    rw [Heap.size_grow] at hstep
    obtain ⟨front, inner, hcontains⟩ := htree.exists_contains hstep
    obtain ⟨back, hback⟩ := hcontains.exists_tokens_eq
    obtain ⟨hlt', hname'⟩ := h.target name target htarget
    exact ⟨owner, tree, _, front, name, back, inner, target, hwritten, by simpa using hback,
      hcontains, rfl, hlt', htarget, hname'⟩

/-- Where definitions are written one after the other, each of them begins behind the cells of those
before. -/
theorem refers_injectEach (h : book.IsLinked table written) (hvalid : heap.Valid)
    (hids : ∀ id ∈ ids, id.toNat < book.size) :
    HeapAction.Refers
      (fun address word => ∃ before id after, ids = before ++ id :: after ∧
        book.RefersAsWritten table written id (heap.size + (before.map book.room).sum) address word)
      heap (book.injectEach ids heap) := by
  induction ids generalizing heap with
  | nil => exact .ok [] (.refl hvalid)
  | cons id ids ih =>
    obtain ⟨hid, hothers⟩ := List.forall_mem_cons.mp hids
    have hfirst := h.refers_inject hvalid hid
    rw [injectEach_cons]
    refine (hfirst.mono fun hgains => hgains.mono ?_).bind fun root between hrun hbetween => ?_
    · intro address word hrefers
      exact ⟨[], id, ids, rfl, hrefers⟩
    · have hrest := ih hbetween.valid hothers
      refine (hrest.mono fun hgains => hbetween.trans (hgains.mono ?_)).bind
        fun roots left _ hleft => .ok (root :: roots) hleft
      rintro address word ⟨before, other, after, rfl, hrefers⟩
      refine ⟨id :: before, other, after, rfl, ?_⟩
      rw [List.map_cons, List.sum_cons, ← Nat.add_assoc, ← size_of_inject hrun]
      exact hrefers

end IsLinked

theorem toNat_lt_of_mem_allIds {id : UInt32} (h : id ∈ book.allIds) : id.toNat < book.size := by
  obtain ⟨place, hplace, rfl⟩ := List.mem_map.mp h
  rw [UInt32.toNat_ofNat']
  exact Nat.lt_of_le_of_lt (Nat.mod_le _ _) (List.mem_range.mp hplace)

/-- The references that the definitions of a book bring into a heap are those that are written in
the text of the book, each with the id of a definition of the name that is written there.  Whether
it is one definition that is written or all of them, none of the cells in use is changed, and an
error is about room, a label or a binder. -/
theorem references_of_read (h : Book.read text = .ok book) :
    ∃ blocks written, IsWrittenBook blocks written text.toList ∧ book.size = written.length ∧
      ∀ heap : Heap, heap.Valid →
        (∀ id, id.toNat < book.size →
          heap.Keeps (fun _ => True) (stateAfter (book.inject id heap)) ∧
            HeapAction.Refers
              (book.RefersAsWritten (.ofBlocks (blocks.map Prod.fst)) written id heap.size) heap
              (book.inject id heap)) ∧
        heap.Keeps (fun _ => True) (stateAfter (book.injectAll heap)) ∧
          HeapAction.Refers
            (fun address word => ∃ before id after, book.allIds = before ++ id :: after ∧
              book.RefersAsWritten (.ofBlocks (blocks.map Prod.fst)) written id
                (heap.size + (before.map book.room).sum) address word)
            heap (book.injectAll heap) := by
  obtain ⟨source, hsource, hassemble⟩ := read_eq_ok_iff.mp h
  obtain ⟨blocks, written, hwritten, hdefinitions⟩ :=
    exists_isWrittenBook (BookSource.isReading_of_read hsource).2
  rw [hdefinitions] at hassemble
  have hlinked := isLinked_of_assemble hwritten.derivesDefinition hassemble
  refine ⟨blocks, written, hwritten, hlinked.size_eq, fun heap hvalid => ⟨fun id hid => ?_, ?_, ?_⟩⟩
  · exact ⟨book.keeps_inject id heap, hlinked.refers_inject hvalid hid⟩
  · exact book.keeps_injectEach book.allIds heap
  · exact hlinked.refers_injectEach hvalid fun _ hmem => toNat_lt_of_mem_allIds hmem

/-- The first definition is a lambda whose body refers to the second.  It takes the cells from 0 on,
and the body is in the cell 2, which has the id of the second. -/
theorem references_of_read_body :
    ∃ book, Book.read "@f=λx@g@g=*" = .ok book ∧
      ∃ blocks written, IsWrittenBook blocks written "@f=λx@g@g=*".toList ∧
        (stateAfter (book.inject 0 ⟨#[], 8⟩)).cells[2]? = some (.pack .ref 0 1) ∧
        book.RefersAsWritten (.ofBlocks (blocks.map Prod.fst)) written 0 0 2 (.pack .ref 0 1) := by
  have hf : DerivesDefinition (.ofBlocks []) ("f", .lam "x" (.ref "g" none))
      [['@', 'f'], ['='], ['λ'], ['x'], ['@', 'g']] :=
    .intro ⟨by decide, by decide⟩ (.lam ⟨by decide, by decide⟩ (.ref ⟨by decide, by decide⟩))
  have hg : DerivesDefinition (.ofBlocks []) ("g", .era) [['@', 'g'], ['='], ['*']] :=
    .intro ⟨by decide, by decide⟩ .era
  have hblocks : ∀ block ∈ ([] : List (DataBlock × List Token)), DerivesBlock block.1 block.2 := by
    simp
  have hdefinitions : ∀ definition ∈ [((_ : String × Tree), (_ : List Token)), (_, _)],
      DerivesDefinition (.ofBlocks []) definition.1 definition.2 :=
    List.forall_mem_cons.mpr ⟨hf, List.forall_mem_singleton.mpr hg⟩
  have htext : Spells [['@', 'f'], ['='], ['λ'], ['x'], ['@', 'g'], ['@', 'g'], ['='], ['*']]
      "@f=λx@g@g=*".toList :=
    .cons .nil (by decide) (.cons .nil (by decide) (.cons .nil (by decide)
      (.cons .nil (by decide) (.cons .nil (by decide) (.cons .nil (by decide)
      (.cons .nil (by decide) (.cons .nil (by decide) (.nil .nil))))))))
  have hsource := BookSource.read_of_isBookSpelling ⟨_, .intro hblocks hdefinitions, htext⟩
  have hnodup : (names [("f", Tree.lam "x" (.ref "g" none)), ("g", .era)]).Nodup := by decide
  have hdefined : Defined [("f", Tree.lam "x" (.ref "g" none)), ("g", .era)] := by
    simp [Defined, names, Tree.references, Tree.nodes, Tree.referenceName?]
  obtain ⟨ids, hassemble, hplaces, -⟩ := exists_assemble_eq (.ofBlocks []) hnodup hdefined
  have hread := read_eq_ok_iff.mpr ⟨_, hsource, hassemble⟩
  have hid : ids["g"]? = some 1 := hplaces 1 "g" rfl
  have hwrite : (withIds ids [("f", .lam "x" (.ref "g" none)), ("g", .era)] (.ofBlocks [])).inject 0
      ⟨#[], 8⟩ = .ok (.pack .lam 0 1) ⟨#[.pack .lam 0 1, .sub, .pack .ref 0 1], 8⟩ := by
    rw [inject_eq]
    simp only [withIds, List.map_cons, Tree.withIds, hid]
    rfl
  obtain ⟨blocks, written, hwritten, -, hheaps⟩ := references_of_read hread
  have hcell : (stateAfter ((withIds ids [("f", .lam "x" (.ref "g" none)), ("g", .era)]
      (.ofBlocks [])).inject 0 ⟨#[], 8⟩)).cells[2]? = some (.pack .ref 0 1) := by
    rw [hwrite]
    rfl
  obtain ⟨-, hgains⟩ := (hheaps ⟨#[], 8⟩ (by decide)).1 0 (by simp [withIds, size])
  have hrefers := hgains.state.cells 2 _ hcell (Word.tag?_pack ..)
  exact ⟨_, hread, blocks, written, hwritten, hcell, hrefers.resolve_left (by simp)⟩

end Book

end InteractionGraph
