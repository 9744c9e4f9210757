import InteractionGraph.Proofs.Grammar.BookSound

/-!
# The arm for all other constructors

The arm that is written `#_` stands for every constructor without an arm of its own.  It has an id
as other arms do, `Tree.wildcard`, and arms are sorted by their ids.  For it to come last, and not
to be taken for the arm of a constructor, the ids of the other arms have to be smaller.

Nothing sees to that.  The id of the wildcard is `0xfffffff`, and a constructor may go by any number
of 32 bits.  `defaultsLast_iff` says which matches keep the rule, and `read_defaultsLast_iff` says
it of every match in what is read, whether a term or a book.  There an arm is known by how it is
written (`IsWrittenMatch`): each node of a term, unless it is an application, is written somewhere
among the tokens of the term (`Derives.writtenWithin`).
-/

namespace InteractionGraph

/-! ## Applications in a row -/

namespace Tree

variable {arguments : List Tree}

theorem applyAll_concat (function : Tree) (arguments : List Tree) (argument : Tree) :
    function.applyAll (arguments ++ [argument]) = .app (function.applyAll arguments) argument :=
  List.foldl_append

theorem exists_app_of_applyAll (function : Tree) (hne : arguments ≠ []) :
    ∃ inner argument, function.applyAll arguments = .app inner argument := by
  obtain ⟨others, argument, rfl⟩ := (List.eq_nil_or_concat' arguments).resolve_left hne
  exact ⟨_, _, applyAll_concat function others argument⟩

end Tree

namespace Grammar

open Parse

variable {table : ConstructorTable} {tree node : Tree} {tokens : List Token}

/-! ## Where a node is written -/

/-- The term is written somewhere among the tokens. -/
def WrittenWithin (table : ConstructorTable) (node : Tree) (tokens : List Token) : Prop :=
  ∃ inner, Derives table node inner ∧ inner <:+: tokens

theorem WrittenWithin.mono {part : List Token} (h : WrittenWithin table node part)
    (hpart : part <:+: tokens) : WrittenWithin table node tokens := by
  obtain ⟨inner, hinner, hinfix⟩ := h
  exact ⟨inner, hinner, hinfix.trans hpart⟩

theorem Derives.writtenWithin_self (h : Derives table tree tokens) :
    WrittenWithin table tree tokens :=
  ⟨tokens, h, List.infix_rfl⟩

theorem infix_flatMap {ι : Type} {items : List ι} {i : ι} (f : ι → List Token) (h : i ∈ items) :
    f i <:+: items.flatMap f := by
  rw [List.flatMap_def]
  exact List.infix_of_mem_flatten (List.mem_map_of_mem h)

/-- The nodes of several applications in a row are applications, or nodes of the function or of an
argument. -/
theorem mem_nodes_applyAll {function : Tree} {arguments : List Tree}
    (hnode : node ∈ (function.applyAll arguments).nodes)
    (happ : ∀ function argument, node ≠ .app function argument) :
    node ∈ function.nodes ∨ ∃ argument ∈ arguments, node ∈ argument.nodes := by
  induction arguments generalizing function with
  | nil => exact .inl hnode
  | cons argument arguments ih =>
    rcases ih hnode with hmem | ⟨other, hother, hmem⟩
    · simp only [Tree.nodes, List.mem_cons, List.mem_append] at hmem
      rcases hmem with heq | hmem | hmem
      · exact absurd heq (happ _ _)
      · exact .inl hmem
      · exact .inr ⟨argument, List.mem_cons_self, hmem⟩
    · exact .inr ⟨other, List.mem_cons_of_mem _ hother, hmem⟩

/-- Every node that is no application is written among the tokens of the term. -/
theorem Derives.writtenWithin (h : Derives table tree tokens) (hnode : node ∈ tree.nodes)
    (happ : ∀ function argument, node ≠ .app function argument) :
    WrittenWithin table node tokens := by
  induction h with
  | era =>
    obtain rfl := List.mem_singleton.mp hnode
    exact Derives.era.writtenWithin_self
  | ref hname =>
    obtain rfl := List.mem_singleton.mp hnode
    exact (Derives.ref hname).writtenWithin_self
  | var hname hdigits =>
    obtain rfl := List.mem_singleton.mp hnode
    exact (Derives.var hname hdigits).writtenWithin_self
  | u32 hdigits =>
    obtain rfl := List.mem_singleton.mp hnode
    exact (Derives.u32 hdigits).writtenWithin_self
  | @lam name _ tokens hname hbody ih =>
    rcases List.mem_cons.mp hnode with rfl | hmem
    · exact (Derives.lam hname hbody).writtenWithin_self
    · exact (ih hmem).mono (List.suffix_append [['λ'], name.toList] tokens).isInfix
  | @app _ tokens arguments _ _ _ _ ihfunction iharguments =>
    rcases mem_nodes_applyAll hnode happ with hmem | ⟨_, hargument, hmem⟩
    · exact (ihfunction hmem).mono (List.infix_append' [['(']] tokens _)
    · obtain ⟨argument, hmem', rfl⟩ := List.mem_map.mp hargument
      have hplace := infix_flatMap Prod.snd hmem'
      exact (iharguments argument hmem' hmem).mono
        (hplace.trans (List.infix_cons (List.infix_append' tokens _ _)))
  | @sup _ _ _ _ first second hdigits hleft hright ihleft ihright =>
    simp only [Tree.nodes, List.mem_cons, List.mem_append] at hnode
    rcases hnode with rfl | hmem | hmem
    · exact (Derives.sup hdigits hleft hright).writtenWithin_self
    · exact (ihleft hmem).mono (List.infix_append' [_, _] first _)
    · exact (ihright hmem).mono
        (List.infix_cons (List.infix_cons (List.infix_append' first second _)))
  | @dup _ _ _ _ _ _ first second hdigits hdp0 hdp1 hvalue hbody ihvalue ihbody =>
    simp only [Tree.nodes, List.mem_cons, List.mem_append] at hnode
    rcases hnode with rfl | hmem | hmem
    · exact (Derives.dup hdigits hdp0 hdp1 hvalue hbody).writtenWithin_self
    · exact (ihvalue hmem).mono (List.infix_append' [_, _, _, _, _, _, _] first second)
    · have hlast : second <:+: first ++ second := (List.suffix_append first second).isInfix
      exact (ihbody hmem).mono
        (hlast.trans (List.suffix_append [_, _, _, _, _, _, _] (first ++ second)).isInfix)
  | @ctr _ _ fields hname hfields ih =>
    rcases List.mem_cons.mp hnode with rfl | hmem
    · exact (Derives.ctr hname hfields).writtenWithin_self
    · obtain ⟨_, hlisted, hmem⟩ := Tree.mem_nodesOfFields.mp hmem
      obtain ⟨field, hfield, rfl⟩ := List.mem_map.mp hlisted
      exact (ih field hfield hmem).mono
        ((infix_flatMap Prod.snd hfield).trans (List.infix_append' [_, _] _ _))
  | @mat _ tokens arms hscrutinee hnames harms ihscrutinee iharms =>
    simp only [Tree.matching, Tree.nodes, List.mem_cons, List.mem_append] at hnode
    rcases hnode with rfl | hmem | hmem
    · exact (Derives.mat hscrutinee hnames harms).writtenWithin_self
    · exact (ihscrutinee hmem).mono (List.infix_append' [_] tokens _)
    · obtain ⟨_, hsorted, hmem⟩ := Tree.mem_nodesOfArms.mp hmem
      obtain ⟨arm, harm, rfl⟩ := List.mem_map.mp ((Tree.sortArms_perm _).mem_iff.mp hsorted)
      have hbody : arm.bodyTokens <:+: arm.tokens :=
        (List.suffix_append [_, _] arm.bodyTokens).isInfix
      have hplace := hbody.trans (infix_flatMap WrittenArm.tokens harm)
      have hlist := hplace.trans (List.infix_append' [['{']] _ [['}']])
      exact (iharms arm harm hmem).mono
        (hlist.trans (List.suffix_append (['~'] :: tokens) _).isInfix)
  | @op2 _ _ _ first second hleft hright ihleft ihright =>
    simp only [Tree.nodes, List.mem_cons, List.mem_append] at hnode
    rcases hnode with rfl | hmem | hmem
    · exact (Derives.op2 hleft hright).writtenWithin_self
    · exact (ihleft hmem).mono (List.infix_append' [_, _] first _)
    · exact (ihright hmem).mono
        (List.infix_cons (List.infix_cons (List.infix_append' first second _)))

/-! ## Matches as they are written -/

variable {written : List WrittenArm} {scrutinee : Tree} {arms : List (UInt32 × Tree)}

/-- The arms of a match in the order in which the match has them. -/
def inOrder (written : List WrittenArm) : List WrittenArm :=
  written.mergeSort fun first second => first.id ≤ second.id

/-- The match is written somewhere among the tokens, with these arms in this order. -/
structure IsWrittenMatch (table : ConstructorTable) (tokens : List Token) (scrutinee : Tree)
    (arms : List (UInt32 × Tree)) (written : List WrittenArm) : Prop where
  names : ∀ arm ∈ written, NamesArm table arm.letters arm.id
  bodies : ∀ arm ∈ written, Derives table arm.body arm.bodyTokens
  place : ∃ head, Derives table scrutinee head ∧
    ['~'] :: (head ++ ['{'] :: (written.flatMap WrittenArm.tokens ++ [['}']])) <:+: tokens
  arms_eq : arms = (inOrder written).map WrittenArm.arm

theorem map_inOrder (written : List WrittenArm) :
    (inOrder written).map WrittenArm.arm = Tree.sortArms (written.map WrittenArm.arm) :=
  List.map_mergeSort fun _ _ _ _ => rfl

theorem mem_inOrder {arm : WrittenArm} : arm ∈ inOrder written ↔ arm ∈ written :=
  (List.mergeSort_perm written _).mem_iff

theorem pairwise_inOrder (written : List WrittenArm) :
    (inOrder written).Pairwise fun first second => first.id ≤ second.id := by
  have hsorted := pairwise_sortArms (written.map WrittenArm.arm)
  rw [← map_inOrder] at hsorted
  rwa [List.pairwise_map] at hsorted

/-- Of two arms, the one with the smaller id comes first. -/
theorem rel_of_pairwise_inOrder {R : WrittenArm → WrittenArm → Prop} {first second : WrittenArm}
    (h : (inOrder written).Pairwise R) (hfirst : first ∈ written) (hsecond : second ∈ written)
    (hlt : first.id < second.id) : R first second := by
  obtain ⟨i, hi, rfl⟩ := List.mem_iff_getElem.mp (mem_inOrder.mpr hfirst)
  obtain ⟨j, hj, rfl⟩ := List.mem_iff_getElem.mp (mem_inOrder.mpr hsecond)
  rcases Nat.lt_trichotomy i j with hij | rfl | hji
  · exact List.pairwise_iff_getElem.mp h i j hi hj hij
  · exact absurd hlt (UInt32.lt_irrefl _)
  · have hle := List.pairwise_iff_getElem.mp (pairwise_inOrder written) j i hj hi hji
    exact absurd hlt (UInt32.not_lt.mpr hle)

/-- A match is written with its arms. -/
theorem exists_isWrittenMatch (h : WrittenWithin table (.mat scrutinee arms) tokens) :
    ∃ written, IsWrittenMatch table tokens scrutinee arms written := by
  obtain ⟨inner, hinner, hinfix⟩ := h
  generalize htree : Tree.mat scrutinee arms = tree at hinner
  cases hinner with
  | @mat _ head written hhead hnames hbodies =>
    cases htree
    exact ⟨written, hnames, hbodies, ⟨head, hhead, hinfix⟩, (map_inOrder written).symm⟩
  | @app function _ _ _ _ hne _ =>
    obtain ⟨_, _, happ⟩ := function.exists_app_of_applyAll (mt List.map_eq_nil_iff.mp hne)
    cases htree.trans happ
  | era | lam _ _ | sup _ _ _ | dup _ _ _ _ _ | ref _ | var _ _ | ctr _ _ | op2 _ _ | u32 _ =>
    cases htree

/-! ## The rule for defaults -/

/-- The arm stands for all constructors without an arm of their own. -/
def WrittenArm.IsDefault (written : WrittenArm) : Prop := written.letters = ['_']

/-- The arms that are written `#_` come after all others, and only they have the id of the
wildcard. -/
def DefaultsLast (written : List WrittenArm) : Prop :=
  ((inOrder written).Pairwise fun first second => first.IsDefault → second.IsDefault) ∧
    ∀ arm ∈ written, arm.id = Tree.wildcard → arm.IsDefault

/-- The arms that are written with other names stay below the wildcard.  Where there is no default,
their ids may be greater. -/
def StaysBelow (written : List WrittenArm) : Prop :=
  ∀ arm ∈ written, ¬ arm.IsDefault →
    arm.id ≠ Tree.wildcard ∧ ((∃ other ∈ written, other.IsDefault) → arm.id < Tree.wildcard)

theorem id_of_isDefault {arm : WrittenArm} (hname : NamesArm table arm.letters arm.id)
    (h : arm.IsDefault) : arm.id = Tree.wildcard := by
  unfold NamesArm at hname
  rwa [if_pos (show arm.letters = ['_'] from h)] at hname

/-- The rule is kept exactly by the matches in which the other names stay below the wildcard. -/
theorem defaultsLast_iff (hnames : ∀ arm ∈ written, NamesArm table arm.letters arm.id) :
    DefaultsLast written ↔ StaysBelow written := by
  constructor
  · rintro ⟨hlast, honly⟩ arm harm hdefault
    have hne : arm.id ≠ Tree.wildcard := fun hid => hdefault (honly arm harm hid)
    refine ⟨hne, ?_⟩
    rintro ⟨other, hother, hother'⟩
    have hid := id_of_isDefault (hnames other hother) hother'
    refine (UInt32.lt_or_lt_of_ne hne).resolve_right fun hgt => ?_
    -- The default would come before the arm.
    rw [← hid] at hgt
    exact hdefault (rel_of_pairwise_inOrder hlast hother harm hgt hother')
  · intro h
    constructor
    · refine (pairwise_inOrder written).imp_of_mem ?_
      intro first second hfirst hsecond hle hdefault
      by_contra hother
      rw [mem_inOrder] at hfirst hsecond
      have hid := id_of_isDefault (hnames first hfirst) hdefault
      have hlt := (h second hsecond hother).2 ⟨first, hfirst, hdefault⟩
      rw [hid] at hle
      exact absurd hlt (UInt32.not_lt.mpr hle)
    · intro arm harm hid
      by_contra hother
      exact (h arm harm hother).1 hid

/-! ## What is read -/

/-- The matches among the nodes are written among the tokens. -/
def WritesMatches (table : ConstructorTable) (tokens : List Token) (nodes : List Tree) : Prop :=
  ∀ scrutinee arms, .mat scrutinee arms ∈ nodes →
    ∃ written, IsWrittenMatch table tokens scrutinee arms written

theorem Derives.writesMatches (h : Derives table tree tokens) :
    WritesMatches table tokens tree.nodes := by
  intro scrutinee arms hmem
  exact exists_isWrittenMatch (h.writtenWithin hmem nofun)

/-- The term of a definition is written among the tokens of its book. -/
theorem DerivesBook.writtenWithin {blocks : List DataBlock} {definitions : List (String × Tree)}
    {definition : String × Tree} (h : DerivesBook blocks definitions tokens)
    (hdefinition : definition ∈ definitions) :
    WrittenWithin (.ofBlocks blocks) definition.2 tokens := by
  cases h with
  | @intro writtenBlocks written hblocks hdefinitions =>
    obtain ⟨⟨definition, part⟩, hwritten, rfl⟩ := List.mem_map.mp hdefinition
    have hplace := (infix_flatMap Prod.snd hwritten).trans
      (List.suffix_append (writtenBlocks.flatMap Prod.snd) _).isInfix
    cases hdefinitions _ hwritten with
    | @intro name tree tokens hname htree =>
      have hbody := (List.suffix_append [('@' :: name.toList), ['=']] tokens).isInfix
      exact ⟨tokens, htree, hbody.trans hplace⟩

theorem DerivesBook.writesMatches {blocks : List DataBlock} {definitions : List (String × Tree)}
    (h : DerivesBook blocks definitions tokens) :
    WritesMatches (.ofBlocks blocks) tokens
      (definitions.flatMap fun definition => definition.2.nodes) := by
  intro scrutinee arms hmem
  obtain ⟨definition, hdefinition, hnode⟩ := List.mem_flatMap.mp hmem
  obtain ⟨part, htree, hpart⟩ := h.writtenWithin hdefinition
  exact exists_isWrittenMatch ((htree.writtenWithin hnode nofun).mono hpart)

end Grammar

open Grammar

/-- In a term or a book that is read, every match is written among the tokens of the text.  Of the
matches that are written there, those keep the rule for defaults in which the arms with other names
stay below the wildcard, and no others. -/
theorem read_defaultsLast_iff (table : ConstructorTable) (text : String) :
    (∀ tree, Tree.read table text = .ok tree →
      ∃ tokens rest, Scans tokens text.toList rest ∧ Room rest [] ∧
        WritesMatches table tokens tree.nodes ∧
        ∀ scrutinee arms written, IsWrittenMatch table tokens scrutinee arms written →
          (DefaultsLast written ↔ StaysBelow written)) ∧
    (∀ source, BookSource.read text = .ok source →
      ∃ tokens rest, Scans tokens text.toList rest ∧ Room rest [] ∧
        WritesMatches source.constructors tokens
          (source.definitions.flatMap fun definition => definition.2.nodes) ∧
        ∀ scrutinee arms written,
          IsWrittenMatch source.constructors tokens scrutinee arms written →
            (DefaultsLast written ↔ StaysBelow written)) := by
  constructor
  · intro tree h
    obtain ⟨tokens, rest, hderives, hscans, hroom⟩ := Tree.isReading_of_read h
    exact ⟨tokens, rest, hscans, hroom, hderives.writesMatches,
      fun _ _ _ hwritten => defaultsLast_iff hwritten.names⟩
  · intro source h
    obtain ⟨htable, tokens, rest, hderives, hscans, hroom⟩ := BookSource.isReading_of_read h
    rw [htable]
    exact ⟨tokens, rest, hscans, hroom, hderives.writesMatches,
      fun _ _ _ hwritten => defaultsLast_iff hwritten.names⟩

/-- The default is written first and comes last, behind the arm of a constructor that goes by a
number below the wildcard. -/
theorem read_defaultsLast_iff_below :
    Tree.read .empty "~x{#_:2#7:1}" =
        .ok (.mat (.var "x") [(7, .u32 1), (Tree.wildcard, .u32 2)]) ∧
      ∃ tokens rest written, Scans tokens "~x{#_:2#7:1}".toList rest ∧
        IsWrittenMatch .empty tokens (.var "x") [(7, .u32 1), (Tree.wildcard, .u32 2)] written ∧
        (DefaultsLast written ↔ StaysBelow written) := by
  have hx : Derives .empty (.var "x") [['x']] := .var ⟨by decide, by decide⟩ (by decide)
  have hone : Derives .empty (.u32 1) [['1']] := .u32 ⟨by decide, by decide, by decide⟩
  have htwo : Derives .empty (.u32 2) [['2']] := .u32 ⟨by decide, by decide, by decide⟩
  have hnames : ∀ arm ∈ [(⟨['_'], Tree.wildcard, .u32 2, [['2']]⟩ : WrittenArm),
      ⟨['7'], 7, .u32 1, [['1']]⟩], NamesArm .empty arm.letters arm.id := by
    have hseven : NamesConstructor .empty ['7'] 7 := ⟨by decide, by decide +kernel⟩
    simpa [NamesArm] using hseven
  have hbodies : ∀ arm ∈ [(⟨['_'], Tree.wildcard, .u32 2, [['2']]⟩ : WrittenArm),
      ⟨['7'], 7, .u32 1, [['1']]⟩], Derives .empty arm.body arm.bodyTokens := by
    simpa using ⟨htwo, hone⟩
  have hderives := Derives.mat hx hnames hbodies
  have hsorted : Tree.sortArms [(Tree.wildcard, .u32 2), (7, .u32 1)] =
      [(7, .u32 1), (Tree.wildcard, .u32 2)] := by
    simp [Tree.sortArms, Tree.wildcard, List.mergeSort]
  have htext : Spells [['~'], ['x'], ['{'], ['#', '_'], [':'], ['2'], ['#', '7'], [':'], ['1'],
      ['}']] "~x{#_:2#7:1}".toList :=
    .cons .nil (by decide) (.cons .nil (by decide) (.cons .nil (by decide)
      (.cons .nil (by decide) (.cons .nil (by decide) (.cons .nil (by decide)
      (.cons .nil (by decide) (.cons .nil (by decide) (.cons .nil (by decide)
      (.cons .nil (by decide) (.nil .nil))))))))))
  have hread : Tree.read .empty "~x{#_:2#7:1}" =
      .ok (.mat (.var "x") [(7, .u32 1), (Tree.wildcard, .u32 2)]) := by
    rw [← hsorted]
    exact Tree.read_of_isSpelling ⟨_, hderives, htext⟩
  refine ⟨hread, ?_⟩
  obtain ⟨tokens, rest, hscans, -, hwritten, hiff⟩ := (read_defaultsLast_iff .empty _).1 _ hread
  obtain ⟨written, hmatch⟩ := hwritten _ _ (List.mem_cons_self)
  exact ⟨tokens, rest, written, hscans, hmatch, hiff _ _ _ hmatch⟩

/-- The arm of a constructor that goes by a number above the wildcard is written first and comes
last, behind the default. -/
theorem Tree.read_default_first :
    Tree.read .empty "~x{#268435456: 1 #_: 2}" =
        .ok (.mat (.var "x") [(Tree.wildcard, .u32 2), (268435456, .u32 1)]) ∧
      ∃ tokens written, Spells tokens "~x{#268435456: 1 #_: 2}".toList ∧
        IsWrittenMatch .empty tokens (.var "x")
          [(Tree.wildcard, .u32 2), (268435456, .u32 1)] written ∧
        ¬ DefaultsLast written := by
  have hx : Derives .empty (.var "x") [['x']] := .var ⟨by decide, by decide⟩ (by decide)
  have hone : Derives .empty (.u32 1) [['1']] := .u32 ⟨by decide, by decide, by decide⟩
  have htwo : Derives .empty (.u32 2) [['2']] := .u32 ⟨by decide, by decide, by decide⟩
  have hnames : ∀ arm ∈ [(⟨"268435456".toList, 268435456, .u32 1, [['1']]⟩ : WrittenArm),
      ⟨['_'], Tree.wildcard, .u32 2, [['2']]⟩], NamesArm .empty arm.letters arm.id := by
    have hnumber : NamesConstructor .empty "268435456".toList 268435456 :=
      ⟨by decide, by decide +kernel⟩
    simpa [NamesArm] using hnumber
  have hbodies : ∀ arm ∈ [(⟨"268435456".toList, 268435456, .u32 1, [['1']]⟩ : WrittenArm),
      ⟨['_'], Tree.wildcard, .u32 2, [['2']]⟩], Derives .empty arm.body arm.bodyTokens := by
    simpa using ⟨hone, htwo⟩
  have hderives := Derives.mat hx hnames hbodies
  have hsorted : Tree.sortArms [(268435456, .u32 1), (Tree.wildcard, .u32 2)] =
      [(Tree.wildcard, .u32 2), (268435456, .u32 1)] := by
    simp [Tree.sortArms, Tree.wildcard, List.mergeSort]
  have hspace : IsGap [' '] := .blank (by decide) .nil
  have htext : Spells [['~'], ['x'], ['{'], '#' :: "268435456".toList, [':'], ['1'], ['#', '_'],
      [':'], ['2'], ['}']] "~x{#268435456: 1 #_: 2}".toList :=
    .cons .nil (by decide) (.cons .nil (by decide) (.cons .nil (by decide)
      (.cons .nil (by decide) (.cons .nil (by decide) (.cons hspace (by decide)
      (.cons hspace (by decide) (.cons .nil (by decide) (.cons hspace (by decide)
      (.cons .nil (by decide) (.nil .nil))))))))))
  constructor
  · rw [← hsorted]
    exact Tree.read_of_isSpelling ⟨_, hderives, htext⟩
  · refine ⟨_, _, htext, ⟨hnames, hbodies, ⟨_, hx, List.infix_rfl⟩, ?_⟩, ?_⟩
    · rw [map_inOrder]
      exact hsorted.symm
    · rw [defaultsLast_iff hnames]
      intro hbelow
      have hfirst := hbelow _ List.mem_cons_self (by unfold WrittenArm.IsDefault; decide)
      have hlt := hfirst.2 ⟨_, List.mem_cons_of_mem _ List.mem_cons_self, rfl⟩
      exact absurd hlt (by decide)

end InteractionGraph
