import InteractionGraph.Inject.Unit
import InteractionGraph.Proofs.Grammar.Wildcard
import Mathlib.Data.List.Nodup
import Mathlib.Logic.Relation

/-!
# The order in which arms are written

A match has its arms in the order of their ids, whatever the order is in which they are written.  If
no two of them have the same id, sorting forgets all of the written order; otherwise it keeps that
of the arms that share an id (`SortsArms`).

For texts this is a statement about what may be exchanged in them: the arms of a match, anywhere
among the tokens (`ReordersArms`), and then those of another one, inside of it or not.  What has to
be seen is that a piece of a text that looks like a match is the match that is read there.  Each
mark `~` among the tokens of a term begins a part of the term (`Derives.hasParts`), and a term ends
where it ends, because the parser would stop there (`Derives.eq_of_append_eq`).
-/

namespace InteractionGraph

namespace Grammar

open Parse Parser Text

variable {table : ConstructorTable} {tree other node : Tree}
  {tokens others front rest inner back : List Token}

/-! ## Terms end where they end -/

/-- The characters that tokens begin with, other than letters and operators. -/
def marks : List Char := ['&', '@', '#'] ++ punctuation

theorem solid_of_mem_marks {c : Char} (hc : c ∈ marks) (letters : List Char) :
    Solid (c :: letters) := by
  have hall : ∀ d ∈ marks, isBlank d = false ∧ d ≠ '/' := by decide
  exact solid_of_isBlank (hall c hc).1 (hall c hc).2 letters

theorem IsName.solid {name : String} (h : IsName name) : Solid name.toList := solid_word h.1 h.2

theorem Derives.solid (h : Derives table tree tokens) : ∀ token ∈ tokens, Solid token := by
  have hmark : ∀ c ∈ marks, ∀ letters, Solid (c :: letters) := fun c hc => solid_of_mem_marks hc
  induction h with
  | era => simpa using hmark '*' (by decide) []
  | lam hname _ ih =>
    simp only [List.forall_mem_cons]
    exact ⟨hmark 'λ' (by decide) [], hname.solid, ih⟩
  | app _ _ _ _ ihfunction iharguments =>
    simp only [List.forall_mem_cons, List.forall_mem_append, List.forall_mem_flatMap]
    exact ⟨hmark '(' (by decide) [], ihfunction, iharguments, hmark ')' (by decide) [], by simp⟩
  | sup _ _ _ ihleft ihright =>
    simp only [List.forall_mem_cons, List.forall_mem_append]
    exact ⟨hmark '&' (by decide) _, hmark '{' (by decide) [], ihleft, ihright,
      hmark '}' (by decide) [], by simp⟩
  | dup _ hdp0 hdp1 _ _ ihvalue ihbody =>
    simp only [List.forall_mem_cons, List.forall_mem_append]
    exact ⟨hmark '!' (by decide) [], hmark '&' (by decide) _, hmark '{' (by decide) [],
      hdp0.solid, hdp1.solid, hmark '}' (by decide) [], hmark '=' (by decide) [], ihvalue, ihbody⟩
  | ref _ => simpa using hmark '@' (by decide) _
  | var hname _ => simpa using hname.solid
  | ctr _ _ ih =>
    simp only [List.forall_mem_cons, List.forall_mem_append, List.forall_mem_flatMap]
    exact ⟨hmark '#' (by decide) _, hmark '{' (by decide) [], ih, hmark '}' (by decide) [], by simp⟩
  | mat _ _ _ ihscrutinee iharms =>
    simp only [List.forall_mem_cons, List.forall_mem_append, List.forall_mem_flatMap,
      WrittenArm.tokens]
    exact ⟨hmark '~' (by decide) [], ihscrutinee, hmark '{' (by decide) [],
      fun arm harm => ⟨hmark '#' (by decide) _, hmark ':' (by decide) [], iharms arm harm⟩,
      hmark '}' (by decide) [], by simp⟩
  | op2 _ _ ihleft ihright =>
    simp only [List.forall_mem_cons, List.forall_mem_append]
    exact ⟨hmark '(' (by decide) [], solid_operator _, ihleft, ihright, hmark ')' (by decide) [],
      by simp⟩
  | u32 hdigits => simpa using solid_word hdigits.1 hdigits.isNameChar

/-- Behind the tokens of a term there is no more of it. -/
theorem Derives.eq_nil_of_append (h : Derives table tree tokens)
    (hmore : Derives table other (tokens ++ rest)) : rest = [] ∧ tree = other := by
  -- One text is read in two ways: up to `rest`, and to its end.  The parser has only one.
  obtain ⟨text, htext⟩ := exists_spells (tokens ++ rest)
  obtain ⟨left, hread, hleft⟩ := h.readable rest text htext
  obtain ⟨right, hread', hright⟩ := hmore.readable [] text (by rwa [List.append_nil])
  obtain ⟨htree, rfl⟩ := hread.termWith.unique hread'.termWith
  refine ⟨?_, htree⟩
  cases rest with
  | nil => rfl
  | cons token rest =>
    have hsolid := hmore.solid token (by simp)
    obtain ⟨after, hroom, -⟩ := exists_reads_blank hsolid hleft
    obtain ⟨c, cs, rfl, -⟩ := hsolid
    cases (hroom.unique (reads_end hright)).2

/-- Of two terms that begin at the same place, none goes on behind the other. -/
theorem Derives.eq_of_append_eq (h : Derives table tree tokens)
    (hother : Derives table other others)
    (heq : tokens ++ rest = others ++ back) : tokens = others ∧ tree = other := by
  rcases List.append_eq_append_iff.mp heq with ⟨more, rfl, -⟩ | ⟨more, rfl, -⟩
  · obtain ⟨rfl, rfl⟩ := h.eq_nil_of_append hother
    exact ⟨(List.append_nil _).symm, rfl⟩
  · obtain ⟨rfl, rfl⟩ := hother.eq_nil_of_append h
    exact ⟨List.append_nil _, rfl⟩

/-! ## Where matches are written -/

section

variable {α ι : Type} {values others front back : List α} {value : α}

/-- An element of two lists in a row is in the first or in the second. -/
theorem cases_of_append_eq (h : values ++ others = front ++ value :: back) :
    (∃ rest, values = front ++ value :: rest ∧ back = rest ++ others) ∨
      ∃ rest, front = values ++ rest ∧ others = rest ++ value :: back := by
  rcases List.append_eq_append_iff.mp h with ⟨rest, rfl, hothers⟩ | ⟨rest, rfl, hback⟩
  · exact .inr ⟨rest, rfl, hothers⟩
  · cases rest with
    | nil => exact .inr ⟨[], by simp, hback.symm⟩
    | cons first rest =>
      obtain ⟨rfl, rfl⟩ := List.cons_eq_cons.mp hback
      exact .inl ⟨rest, rfl, rfl⟩

/-- An element that items are made of is in one of the items. -/
theorem exists_of_flatMap_eq {items : List ι} {f : ι → List α}
    (h : items.flatMap f = front ++ value :: back) :
    ∃ before item after first last, items = before ++ item :: after ∧
      front = before.flatMap f ++ first ∧ f item = first ++ value :: last ∧
      back = last ++ after.flatMap f := by
  induction items generalizing front with
  | nil => simp at h
  | cons item items ih =>
    rcases cases_of_append_eq h with ⟨last, hitem, rfl⟩ | ⟨rest, rfl, hothers⟩
    · exact ⟨[], item, items, front, last, rfl, rfl, hitem, rfl⟩
    · obtain ⟨before, other, after, first, last, rfl, rfl, hother, rfl⟩ := ih hothers
      exact ⟨item :: before, other, after, first, last, rfl, by simp, hother, rfl⟩

end

/-- The token that a match begins with. -/
def matchMark : Token := ['~']

/-- At a mark behind the tokens `front`, a part of the term is written, in place of which it can be
written in any other way. -/
def HasPartAt (table : ConstructorTable) (tree : Tree) (front rest : List Token) : Prop :=
  ∃ part inner back, matchMark :: rest = inner ++ back ∧ Derives table part inner ∧
    part ∈ tree.nodes ∧
    ∀ others, Derives table part others → Derives table tree (front ++ (others ++ back))

/-- At each mark among the tokens, which stand between others, a part of the term is written. -/
def HasParts (table : ConstructorTable) (tree : Tree) (before tokens after : List Token) : Prop :=
  ∀ front rest, tokens = front ++ matchMark :: rest →
    HasPartAt table tree (before ++ front) (rest ++ after)

namespace HasParts

variable {before after : List Token}

theorem of_notMem (h : matchMark ∉ tokens) : HasParts table tree before tokens after := by
  rintro front rest rfl
  simp at h

theorem append (hfirst : HasParts table tree before tokens (others ++ after))
    (hsecond : HasParts table tree (before ++ tokens) others after) :
    HasParts table tree before (tokens ++ others) after := by
  intro front rest hsplit
  rcases cases_of_append_eq hsplit with ⟨last, hmark, rfl⟩ | ⟨first, rfl, hmark⟩
  · rw [List.append_assoc]
    exact hfirst front last hmark
  · rw [← List.append_assoc]
    exact hsecond first rest hmark

theorem flatMap {ι : Type} {items : List ι} {f : ι → List Token}
    (h : ∀ front item back, items = front ++ item :: back →
      HasParts table tree (before ++ front.flatMap f) (f item) (back.flatMap f ++ after)) :
    HasParts table tree before (items.flatMap f) after := by
  intro front rest hsplit
  obtain ⟨front, item, back, first, last, rfl, rfl, hitem, rfl⟩ := exists_of_flatMap_eq hsplit
  rw [← List.append_assoc, List.append_assoc last]
  exact h front item back rfl first last hitem

/-- A part of a part is a part. -/
theorem within (h : HasParts table other [] tokens []) (hnodes : other.nodes ⊆ tree.nodes)
    (hwithin : ∀ others, Derives table other others →
      Derives table tree (before ++ (others ++ after))) :
    HasParts table tree before tokens after := by
  intro front rest hsplit
  obtain ⟨part, inner, back, hrest, hinner, hmem, hreplace⟩ := h front rest hsplit
  rw [List.append_nil] at hrest
  refine ⟨part, inner, back ++ after, ?_, hinner, hnodes hmem, fun others hothers => ?_⟩
  · rw [← List.cons_append, hrest, List.append_assoc]
  · simpa using hwithin _ (hreplace others hothers)

/-- Two parts are written one after the other, between tokens without a mark. -/
theorem pair {left right : Tree} {head first second close : List Token} (hhead : matchMark ∉ head)
    (hclose : matchMark ∉ close) (hfirst : HasParts table left [] first [])
    (hsecond : HasParts table right [] second []) (hnodes : left.nodes ++ right.nodes ⊆ tree.nodes)
    (hleft : ∀ others, Derives table left others →
      Derives table tree (head ++ (others ++ (second ++ close))))
    (hright : ∀ others, Derives table right others →
      Derives table tree (head ++ (first ++ (others ++ close)))) :
    HasParts table tree [] (head ++ (first ++ (second ++ close))) [] := by
  obtain ⟨hleftNodes, hrightNodes⟩ := List.append_subset.mp hnodes
  refine (of_notMem hhead).append (.append (hfirst.within hleftNodes fun others hothers => ?_)
    (.append (hsecond.within hrightNodes fun others hothers => ?_) (.of_notMem hclose)))
  · simpa using hleft others hothers
  · simpa using hright others hothers

/-- A match is a part of itself. -/
theorem self (h : Derives table tree (matchMark :: after)) :
    HasParts table tree [] [matchMark] after := by
  intro front rest hsplit
  obtain ⟨rfl, rfl⟩ : front = [] ∧ rest = [] := by
    have hlength := congrArg List.length hsplit
    simp at hlength
    exact ⟨List.eq_nil_of_length_eq_zero (by omega), List.eq_nil_of_length_eq_zero (by omega)⟩
  exact ⟨tree, matchMark :: after, [], by simp, h, tree.self_mem_nodes,
    fun others hothers => by simpa using hothers⟩

end HasParts

/-! ## Parts of each form -/

@[simp]
theorem matchMark_eq_cons_iff {c : Char} {cs : List Char} :
    matchMark = c :: cs ↔ c = '~' ∧ cs = [] := by
  rw [matchMark, List.cons_eq_cons]
  exact and_congr eq_comm eq_comm

theorem matchMark_ne_of_letters {letters : List Char}
    (hletters : ∀ c ∈ letters, isNameChar c = true) : matchMark ≠ letters := by
  rintro rfl
  exact absurd (hletters '~' List.mem_cons_self) (by decide)

theorem matchMark_ne_symbol (op : Operator) : matchMark ≠ op.symbol.toList := by
  cases op <;> decide

theorem nodes_subset_applyAll (function : Tree) (arguments : List Tree) :
    function.nodes ⊆ (function.applyAll arguments).nodes := by
  induction arguments generalizing function with
  | nil => exact List.Subset.refl _
  | cons argument arguments ih =>
    have hstep : function.nodes ⊆ (Tree.app function argument).nodes :=
      fun node hnode => List.mem_cons_of_mem _ (List.mem_append_left _ hnode)
    exact List.Subset.trans hstep (ih (.app function argument))

theorem argument_nodes_subset_applyAll (function : Tree) {argument : Tree} {arguments : List Tree}
    (h : argument ∈ arguments) : argument.nodes ⊆ (function.applyAll arguments).nodes := by
  induction arguments generalizing function with
  | nil => cases h
  | cons first arguments ih =>
    rcases List.mem_cons.mp h with rfl | hmem
    · have hstep : argument.nodes ⊆ (Tree.app function argument).nodes :=
        fun node hnode => List.mem_cons_of_mem _ (List.mem_append_right _ hnode)
      exact List.Subset.trans hstep (nodes_subset_applyAll (.app function argument) arguments)
    · exact ih (.app function first) hmem

theorem forall_mem_replaced {ι : Type} {P : ι → Prop} {before after : List ι} {item : ι} (new : ι)
    (h : ∀ i ∈ before ++ item :: after, P i) (hnew : P new) :
    ∀ i ∈ before ++ new :: after, P i := by
  obtain ⟨hbefore, hrest⟩ := List.forall_mem_append.mp h
  obtain ⟨-, hafter⟩ := List.forall_mem_cons.mp hrest
  exact List.forall_mem_append.mpr ⟨hbefore, List.forall_mem_cons.mpr ⟨hnew, hafter⟩⟩

/-- Wherever a mark stands among the tokens of a term, a match is written that is a part of it. -/
theorem Derives.hasParts (h : Derives table tree tokens) : HasParts table tree [] tokens [] := by
  induction h with
  | era | ref _ => exact .of_notMem (by simp)
  | var hname _ => exact .of_notMem (by simpa using matchMark_ne_of_letters hname.2)
  | u32 hdigits => exact .of_notMem (by simpa using matchMark_ne_of_letters hdigits.isNameChar)
  | @lam name body tokens hname _ ih =>
    have hhead : matchMark ∉ [['λ'], name.toList] := by simp [matchMark_ne_of_letters hname.2]
    refine (HasParts.of_notMem hhead).append (ih.within (List.subset_cons_self _ _) ?_)
    intro others hothers
    simpa using Derives.lam hname hothers
  | @app function tokens arguments hfunction harguments hne hpair ihfunction iharguments =>
    have hopen : matchMark ∉ [['(']] := by simp
    have hclose : matchMark ∉ [[')']] := by simp
    refine (HasParts.of_notMem hopen).append
      (.append ?_ (.append (.flatMap ?_) (.of_notMem hclose)))
    · refine ihfunction.within (nodes_subset_applyAll _ _) fun others hothers => ?_
      simpa using Derives.app hothers harguments hne hpair
    · rintro before argument after rfl
      have hmem : argument ∈ before ++ argument :: after := by simp
      refine (iharguments argument hmem).within
        (argument_nodes_subset_applyAll function (List.mem_map_of_mem hmem))
        fun others hothers => ?_
      have hnew := forall_mem_replaced (argument.1, others) harguments hothers
      simpa using Derives.app hfunction hnew (by simp) (by simpa using hpair)
  | @sup label digits left right first second hdigits hleft hright ihleft ihright =>
    have hhead : matchMark ∉ ['&' :: digits, ['{']] := by simp
    have hclose : matchMark ∉ [['}']] := by simp
    exact .pair hhead hclose ihleft ihright (List.subset_cons_self _ _)
      (fun _ hothers => .sup hdigits hothers hright) fun _ hothers => .sup hdigits hleft hothers
  | @dup label digits dp0 dp1 value body first second hdigits hdp0 hdp1 hvalue hbody ihvalue
      ihbody =>
    have hhead : matchMark ∉
        [['!'], '&' :: digits, ['{'], dp0.toList, dp1.toList, ['}'], ['=']] := by
      simp [matchMark_ne_of_letters hdp0.2, matchMark_ne_of_letters hdp1.2]
    have hparts : HasParts table (.dup label dp0 dp1 value body) [] _ [] :=
      .pair hhead List.not_mem_nil ihvalue ihbody (List.subset_cons_self _ _)
        (fun _ hothers => by simpa using Derives.dup hdigits hdp0 hdp1 hothers hbody)
        fun _ hothers => by simpa using Derives.dup hdigits hdp0 hdp1 hvalue hothers
    simpa using hparts
  | @ctr id letters fields hname hfields ih =>
    have hhead : matchMark ∉ ['#' :: letters, ['{']] := by simp
    have hclose : matchMark ∉ [['}']] := by simp
    refine (HasParts.of_notMem hhead).append (.append (.flatMap ?_) (.of_notMem hclose))
    rintro before field after rfl
    have hmem : field ∈ before ++ field :: after := by simp
    refine (ih field hmem).within (fun node hnode => ?_) fun others hothers => ?_
    · exact List.mem_cons_of_mem _
        (Tree.mem_nodesOfFields.mpr ⟨_, List.mem_map_of_mem hmem, hnode⟩)
    · simpa using Derives.ctr hname (forall_mem_replaced (field.1, others) hfields hothers)
  | @mat scrutinee head arms hscrutinee hnames harms ihscrutinee iharms =>
    -- Only here the form brings a mark of its own, at which the match itself is written.
    have hopen : matchMark ∉ [['{']] := by simp
    have hclose : matchMark ∉ [['}']] := by simp
    refine HasParts.append (.self ?_) (.append (ihscrutinee.within ?_ ?_)
      ((HasParts.of_notMem hopen).append (.append (.flatMap ?_) (.of_notMem hclose))))
    · rw [List.append_nil]
      exact .mat hscrutinee hnames harms
    · exact fun node hnode => List.mem_cons_of_mem _ (List.mem_append_left _ hnode)
    · intro others hothers
      simpa [matchMark] using Derives.mat hothers hnames harms
    · rintro before arm after rfl
      have hmem : arm ∈ before ++ arm :: after := by simp
      have hhead : matchMark ∉ ['#' :: arm.letters, [':']] := by simp
      refine (HasParts.of_notMem hhead).append
        ((iharms arm hmem).within ?_ fun others hothers => ?_)
      · intro node hnode
        refine List.mem_cons_of_mem _ (List.mem_append_right _ (Tree.mem_nodesOfArms.mpr ?_))
        exact ⟨_, (Tree.sortArms_perm _).mem_iff.mpr (List.mem_map_of_mem hmem), hnode⟩
      · have hnames' := forall_mem_replaced { arm with bodyTokens := others } hnames
          (hnames arm hmem)
        have harms' := forall_mem_replaced { arm with bodyTokens := others } harms hothers
        simpa [matchMark, WrittenArm.arm, WrittenArm.tokens] using
          Derives.mat hscrutinee hnames' harms'
  | @op2 operator left right first second hleft hright ihleft ihright =>
    have hhead : matchMark ∉ [['('], operator.symbol.toList] := by simp [matchMark_ne_symbol]
    have hclose : matchMark ∉ [[')']] := by simp
    exact .pair hhead hclose ihleft ihright (List.subset_cons_self _ _)
      (fun _ hothers => .op2 hothers hright) fun _ hothers => .op2 hleft hothers

/-! ## Arms in another order -/

section

variable {arms sorted : List (UInt32 × Tree)}

/-- Where no two arms have the same id, sorting forgets their order. -/
theorem sortArms_eq_of_perm (hids : (arms.map Prod.fst).Nodup) (hperm : arms.Perm sorted) :
    Tree.sortArms sorted = Tree.sortArms arms := by
  have hsame : (Tree.sortArms sorted).Perm (Tree.sortArms arms) :=
    (Tree.sortArms_perm _).trans (hperm.symm.trans (Tree.sortArms_perm _).symm)
  refine hsame.eq_of_pairwise ?_ (pairwise_sortArms _) (pairwise_sortArms _)
  intro first second hfirst hsecond hle hge
  have hfirst' : first ∈ arms := (Tree.sortArms_perm _).mem_iff.mp (hsame.mem_iff.mp hfirst)
  have hsecond' : second ∈ arms := (Tree.sortArms_perm _).mem_iff.mp hsecond
  exact List.inj_on_of_nodup_map hids hfirst' hsecond' (UInt32.le_antisymm hle hge)

/-- The match has the arms that are written, sorted by their ids, and those of one id as they are
written. -/
structure SortsArms (arms sorted : List (UInt32 × Tree)) : Prop where
  perm : sorted.Perm arms
  pairwise : sorted.Pairwise fun first second => first.1 ≤ second.1
  filter_eq : ∀ id, sorted.filter (·.1 = id) = arms.filter (·.1 = id)

theorem sortsArms_sortArms (arms : List (UInt32 × Tree)) : SortsArms arms (Tree.sortArms arms) where
  perm := Tree.sortArms_perm arms
  pairwise := pairwise_sortArms arms
  filter_eq id := by
    have hpart : (arms.filter (·.1 = id)).Pairwise fun first second => first.1 ≤ second.1 := by
      refine List.pairwise_of_forall_mem_list fun first hfirst second hsecond => ?_
      have hfirst := List.of_mem_filter hfirst
      have hsecond := List.of_mem_filter hsecond
      rw [decide_eq_true_eq] at hfirst hsecond
      rw [hfirst, hsecond]
      exact UInt32.le_refl id
    have hsub := (sublist_sortArms hpart List.filter_sublist).filter (·.1 = id)
    rw [List.filter_filter] at hsub
    simp only [Bool.and_self] at hsub
    exact (hsub.eq_of_length ((Tree.sortArms_perm arms).filter _).length_eq.symm).symm

end

/-- The tokens of a match, with the tokens of its scrutinee and its arms as they are written. -/
def matchTokens (head : List Token) (arms : List WrittenArm) : List Token :=
  matchMark :: (head ++ ['{'] :: (arms.flatMap WrittenArm.tokens ++ [['}']]))

/-- The tokens differ in the order in which the arms of one match are written, of which no two have
the same id. -/
inductive ReordersArms (table : ConstructorTable) : List Token → List Token → Prop where
  | intro {front back head : List Token} {scrutinee : Tree} {arms others : List WrittenArm} :
    Derives table scrutinee head → (∀ arm ∈ arms, NamesArm table arm.letters arm.id) →
      (∀ arm ∈ arms, Derives table arm.body arm.bodyTokens) → (arms.map WrittenArm.id).Nodup →
      arms.Perm others →
      ReordersArms table (front ++ (matchTokens head arms ++ back))
        (front ++ (matchTokens head others ++ back))

section

variable {head : List Token} {scrutinee : Tree} {arms others : List WrittenArm}

/-- A match that is written among the tokens of a term is a part of it, and can be written there in
any other way. -/
theorem Derives.match_mem_nodes (h : Derives table tree (front ++ (matchTokens head arms ++ back)))
    (hscrutinee : Derives table scrutinee head)
    (hnames : ∀ arm ∈ arms, NamesArm table arm.letters arm.id)
    (hbodies : ∀ arm ∈ arms, Derives table arm.body arm.bodyTokens) :
    .matching scrutinee (arms.map WrittenArm.arm) ∈ tree.nodes ∧
      ∀ others, Derives table (.matching scrutinee (arms.map WrittenArm.arm)) others →
        Derives table tree (front ++ (others ++ back)) := by
  obtain ⟨part, inner, last, hrest, hinner, hmem, hreplace⟩ := h.hasParts front _ rfl
  have hmatch : Derives table (.matching scrutinee (arms.map WrittenArm.arm))
      (matchTokens head arms) := .mat hscrutinee hnames hbodies
  rw [List.append_nil] at hrest
  obtain ⟨rfl, rfl⟩ := hmatch.eq_of_append_eq hinner hrest
  have hsame : matchTokens head arms ++ back = matchTokens head arms ++ last := hrest
  obtain rfl := List.append_cancel_left hsame
  exact ⟨hmem, hreplace⟩

theorem Derives.reordersArms (h : Derives table tree tokens)
    (hreorders : ReordersArms table tokens inner) : Derives table tree inner := by
  cases hreorders with
  | @intro front back head scrutinee arms others hscrutinee hnames hbodies hids hperm =>
    have hids' : ((arms.map WrittenArm.arm).map Prod.fst).Nodup := by
      rwa [List.map_map]
    have hmatch : Derives table (.matching scrutinee (others.map WrittenArm.arm))
        (matchTokens head others) :=
      .mat hscrutinee (fun arm harm => hnames arm (hperm.mem_iff.mpr harm))
        fun arm harm => hbodies arm (hperm.mem_iff.mpr harm)
    rw [Tree.matching, sortArms_eq_of_perm hids' (hperm.map _)] at hmatch
    exact (h.match_mem_nodes hscrutinee hnames hbodies).2 _ hmatch

theorem Derives.of_reordersArms (h : Derives table tree tokens)
    (hreorders : Relation.ReflTransGen (ReordersArms table) tokens inner) :
    Derives table tree inner := by
  induction hreorders with
  | refl => exact h
  | tail _ hlast ih => exact ih.reordersArms hlast

end

/-- The matches of a term are those that are written among its tokens. -/
theorem Derives.match_mem_nodes_iff (h : Derives table tree tokens) {scrutinee : Tree}
    {arms : List (UInt32 × Tree)} :
    .mat scrutinee arms ∈ tree.nodes ↔
      ∃ written, IsWrittenMatch table tokens scrutinee arms written := by
  constructor
  · exact h.writesMatches scrutinee arms
  · rintro ⟨written, hwritten⟩
    obtain ⟨head, hhead, front, back, rfl⟩ := hwritten.place
    rw [List.append_assoc] at h
    have hmem := (h.match_mem_nodes hhead hwritten.names hwritten.bodies).1
    rwa [Tree.matching, ← map_inOrder, ← hwritten.arms_eq] at hmem

theorem IsWrittenMatch.sortsArms {scrutinee : Tree} {arms : List (UInt32 × Tree)}
    {written : List WrittenArm} (h : IsWrittenMatch table tokens scrutinee arms written) :
    SortsArms (written.map WrittenArm.arm) arms := by
  rw [h.arms_eq, map_inOrder]
  exact sortsArms_sortArms _

/-! ## Texts with arms in another order -/

/-- The text is laid out from the tokens.  The line feed is for a comment at the end, which needs
none. -/
def LaysOut (tokens : List Token) (text : String) : Prop := Spells tokens (text.toList ++ ['\n'])

theorem laysOut_of_spells {text : String} (h : Spells tokens text.toList) :
    LaysOut tokens text := by
  unfold LaysOut
  generalize text.toList = letters at h
  induction h with
  | nil hgap =>
    refine .nil ?_
    induction hgap with
    | nil => exact .blank (by decide) .nil
    | blank hblank _ ih => exact .blank hblank ih
    | comment hbody _ ih => simpa using IsGap.comment hbody ih
  | @cons gap after token tokens hgap hapart _ ih =>
    rw [List.append_assoc, List.append_assoc]
    refine .cons hgap ?_ ih
    cases after with
    | nil =>
      have hfeed : isNameChar '\n' = false := by decide
      exact ⟨by simpa using fun _ _ _ => hfeed, by simp⟩
    | cons c after => exact hapart

/-- The texts differ only in the order in which the arms of some matches are written, and in the
room between tokens.  No two arms of such a match have the same id. -/
def DifferInArms (table : ConstructorTable) (text other : String) : Prop :=
  ∃ tokens others, (∃ tree, Derives table tree tokens) ∧ LaysOut tokens text ∧
    LaysOut others other ∧ Relation.ReflTransGen (ReordersArms table) tokens others

end Grammar

open Grammar

variable {table : ConstructorTable} {text other : String} {tree tree' : Tree}

theorem Tree.exists_laysOut_of_read (h : Tree.read table text = .ok tree) :
    ∃ tokens, Derives table tree tokens ∧ LaysOut tokens text := by
  obtain ⟨tokens, rest, hderives, hscans, hroom⟩ := Tree.isReading_of_read h
  exact ⟨tokens, hderives, hscans.spells hroom⟩

/-- A text that is read is laid out from the tokens of no other term. -/
theorem Grammar.Derives.eq_of_read {tokens : List Token} (h : Derives table tree tokens)
    (htext : LaysOut tokens text) (hread : Tree.read table text = .ok tree') : tree' = tree := by
  obtain ⟨others, hothers, hother⟩ := Tree.exists_laysOut_of_read hread
  have hspelling : IsSpelling table tree' (text.toList ++ ['\n']) := ⟨others, hothers, hother⟩
  exact hspelling.unique ⟨tokens, h, htext⟩

/-- Texts that differ only in the order of arms are read as the same term, which is then written
into the same heap.  In a term that is read, the matches are those that are written in the text;
each has all of its arms, sorted by their ids, and those of one id in the order in which they are
written. -/
theorem Tree.read_of_differInArms (table : ConstructorTable) :
    (∀ text other tree tree', DifferInArms table text other → Tree.read table text = .ok tree →
      Tree.read table other = .ok tree' →
        tree' = tree ∧ ∀ host heap, tree'.injectAt host heap = tree.injectAt host heap) ∧
    ∀ text tree, Tree.read table text = .ok tree →
      ∃ tokens, Derives table tree tokens ∧ LaysOut tokens text ∧ ∀ scrutinee arms,
        (.mat scrutinee arms ∈ tree.nodes ↔
          ∃ written, IsWrittenMatch table tokens scrutinee arms written) ∧
        ∀ written, IsWrittenMatch table tokens scrutinee arms written →
          SortsArms (written.map WrittenArm.arm) arms := by
  constructor
  · rintro text other tree tree' ⟨tokens, others, ⟨found, hfound⟩, htext, hother, hreorders⟩
      hread hread'
    obtain rfl := hfound.eq_of_read htext hread
    obtain rfl := (hfound.of_reordersArms hreorders).eq_of_read hother hread'
    exact ⟨rfl, fun _ _ => rfl⟩
  · intro text tree hread
    obtain ⟨tokens, hderives, htext⟩ := Tree.exists_laysOut_of_read hread
    exact ⟨tokens, hderives, htext, fun _ _ =>
      ⟨hderives.match_mem_nodes_iff, fun _ hwritten => hwritten.sortsArms⟩⟩

/-- An arm and a default, written in either order. -/
theorem Tree.read_of_differInArms_default :
    ∃ tree tree', Tree.read .empty "~x{#1:* #_:*}" = .ok tree ∧
      Tree.read .empty "~x{#_:* #1:*}" = .ok tree' ∧
      DifferInArms .empty "~x{#1:* #_:*}" "~x{#_:* #1:*}" ∧ tree' = tree := by
  have hx : Derives .empty (.var "x") [['x']] := .var ⟨by decide, by decide⟩ (by decide)
  have hone : NamesArm .empty ['1'] 1 := ⟨by decide, by decide +kernel⟩
  have hdefault : NamesArm .empty ['_'] wildcard := by simp [NamesArm]
  have hnames : ∀ arm ∈ [(⟨['1'], 1, .era, [['*']]⟩ : WrittenArm),
      ⟨['_'], wildcard, .era, [['*']]⟩], NamesArm .empty arm.letters arm.id :=
    List.forall_mem_cons.mpr ⟨hone, List.forall_mem_singleton.mpr hdefault⟩
  have hbodies : ∀ arm ∈ [(⟨['1'], 1, .era, [['*']]⟩ : WrittenArm),
      ⟨['_'], wildcard, .era, [['*']]⟩], Derives .empty arm.body arm.bodyTokens :=
    List.forall_mem_cons.mpr ⟨.era, List.forall_mem_singleton.mpr .era⟩
  have hderives := Derives.mat hx hnames hbodies
  have hreorders : ReordersArms .empty
      [['~'], ['x'], ['{'], ['#', '1'], [':'], ['*'], ['#', '_'], [':'], ['*'], ['}']]
      [['~'], ['x'], ['{'], ['#', '_'], [':'], ['*'], ['#', '1'], [':'], ['*'], ['}']] :=
    @ReordersArms.intro .empty [] [] _ _ _ _ hx hnames hbodies (by decide) (.swap _ _ [])
  have hspace : IsGap [' '] := .blank (by decide) .nil
  have htext : Spells
      [['~'], ['x'], ['{'], ['#', '1'], [':'], ['*'], ['#', '_'], [':'], ['*'], ['}']]
      "~x{#1:* #_:*}".toList :=
    .cons .nil (by decide) (.cons .nil (by decide) (.cons .nil (by decide)
      (.cons .nil (by decide) (.cons .nil (by decide) (.cons .nil (by decide)
      (.cons hspace (by decide) (.cons .nil (by decide) (.cons .nil (by decide)
      (.cons .nil (by decide) (.nil .nil))))))))))
  have hother : Spells
      [['~'], ['x'], ['{'], ['#', '_'], [':'], ['*'], ['#', '1'], [':'], ['*'], ['}']]
      "~x{#_:* #1:*}".toList :=
    .cons .nil (by decide) (.cons .nil (by decide) (.cons .nil (by decide)
      (.cons .nil (by decide) (.cons .nil (by decide) (.cons .nil (by decide)
      (.cons hspace (by decide) (.cons .nil (by decide) (.cons .nil (by decide)
      (.cons .nil (by decide) (.nil .nil))))))))))
  have hread := Tree.read_of_isSpelling ⟨_, hderives, htext⟩
  have hread' := Tree.read_of_isSpelling ⟨_, hderives.reordersArms hreorders, hother⟩
  have hdiffer : DifferInArms .empty "~x{#1:* #_:*}" "~x{#_:* #1:*}" :=
    ⟨_, _, ⟨_, hderives⟩, laysOut_of_spells htext, laysOut_of_spells hother, .single hreorders⟩
  exact ⟨_, _, hread, hread', hdiffer,
    ((Tree.read_of_differInArms .empty).1 _ _ _ _ hdiffer hread hread').1⟩

end InteractionGraph
