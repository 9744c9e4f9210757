import InteractionGraph.Proofs.Grammar.Sound

/-!
# Where the grammar is ambiguous

`Derives` has a restriction that the table of forms does not show: a list of `*` and two arguments
is no application.  `DerivesFreely` are the rules without it, and a text can then have several
readings.  `Tree.read_sound` says which texts these are, besides that what is read is the one
reading that the restriction leaves.

The two kinds of readings are compared token by token.  Tokens that are derived freely are derived
for some term with the restriction, too, and unless this is the same term, it has a product where
the other has an application (`DerivesFreely.exists_derives`).  The other way, any product of a term
can be taken for an application (`Derives.exists_derivesFreely`).
-/

namespace InteractionGraph

namespace Grammar

variable {table : ConstructorTable} {tree : Tree} {tokens : List Token}

/-- The tokens are a way to write the term, where a list of `*` and two arguments may be an
application as well. -/
inductive DerivesFreely (table : ConstructorTable) : Tree → List Token → Prop where
  | era : DerivesFreely table .era [['*']]
  | lam {name : String} {body : Tree} {tokens : List Token} :
    IsName name → DerivesFreely table body tokens →
      DerivesFreely table (.lam name body) (['λ'] :: name.toList :: tokens)
  | app {function : Tree} {tokens : List Token} {arguments : List (Tree × List Token)} :
    DerivesFreely table function tokens →
      (∀ argument ∈ arguments, DerivesFreely table argument.1 argument.2) → arguments ≠ [] →
      DerivesFreely table (function.applyAll (arguments.map Prod.fst))
        (['('] :: (tokens ++ (arguments.flatMap Prod.snd ++ [[')']])))
  | sup {label : UInt32} {digits : List Char} {left right : Tree} {first second : List Token} :
    IsNumeral digits label → DerivesFreely table left first → DerivesFreely table right second →
      DerivesFreely table (.sup label left right)
        (('&' :: digits) :: ['{'] :: (first ++ (second ++ [['}']])))
  | dup {label : UInt32} {digits : List Char} {dp0 dp1 : String} {value body : Tree}
    {first second : List Token} :
    IsNumeral digits label → IsName dp0 → IsName dp1 → DerivesFreely table value first →
      DerivesFreely table body second →
      DerivesFreely table (.dup label dp0 dp1 value body)
        (['!'] :: ('&' :: digits) :: ['{'] :: dp0.toList :: dp1.toList :: ['}'] :: ['='] ::
          (first ++ second))
  | ref {name : String} :
    IsName name → DerivesFreely table (.ref name none) [('@' :: name.toList)]
  | var {name : String} :
    IsName name → ¬ (∀ c ∈ name.toList, c.isDigit = true) →
      DerivesFreely table (.var name) [name.toList]
  | ctr {id : UInt32} {letters : List Char} {fields : List (Tree × List Token)} :
    NamesConstructor table letters id →
      (∀ field ∈ fields, DerivesFreely table field.1 field.2) →
      DerivesFreely table (.ctr id (fields.map Prod.fst))
        (('#' :: letters) :: ['{'] :: (fields.flatMap Prod.snd ++ [['}']]))
  | mat {scrutinee : Tree} {tokens : List Token} {arms : List WrittenArm} :
    DerivesFreely table scrutinee tokens → (∀ arm ∈ arms, NamesArm table arm.letters arm.id) →
      (∀ arm ∈ arms, DerivesFreely table arm.body arm.bodyTokens) →
      DerivesFreely table (.matching scrutinee (arms.map WrittenArm.arm))
        (['~'] :: (tokens ++ ['{'] :: (arms.flatMap WrittenArm.tokens ++ [['}']])))
  | op2 {operator : Operator} {left right : Tree} {first second : List Token} :
    DerivesFreely table left first → DerivesFreely table right second →
      DerivesFreely table (.op2 operator left right)
        (['('] :: operator.symbol.toList :: (first ++ (second ++ [[')']])))
  | u32 {value : UInt32} {digits : List Char} :
    IsNumeral digits value → DerivesFreely table (.u32 value) [digits]

/-- The text is a reading of the term by the rules without the restriction. -/
def IsFreeReading (table : ConstructorTable) (tree : Tree) (text : List Char) : Prop :=
  ∃ tokens rest, DerivesFreely table tree tokens ∧ Scans tokens text rest ∧ Room rest []

theorem Derives.freely (h : Derives table tree tokens) : DerivesFreely table tree tokens := by
  induction h with
  | era => exact .era
  | lam hname _ ih => exact .lam hname ih
  | app _ _ hne _ ihfunction iharguments => exact .app ihfunction iharguments hne
  | sup hdigits _ _ ihleft ihright => exact .sup hdigits ihleft ihright
  | dup hdigits hdp0 hdp1 _ _ ihvalue ihbody => exact .dup hdigits hdp0 hdp1 ihvalue ihbody
  | ref hname => exact .ref hname
  | var hname hdigits => exact .var hname hdigits
  | ctr hname _ ih => exact .ctr hname ih
  | mat _ hnames _ ihscrutinee iharms => exact .mat ihscrutinee hnames iharms
  | op2 _ _ ihleft ihright => exact .op2 ihleft ihright
  | u32 hdigits => exact .u32 hdigits

/-! ## Products -/

/-- Some node of the term is a product, which is written as a list of `*` and two terms. -/
def HasProduct (tree : Tree) : Prop := ∃ left right, .op2 .mul left right ∈ tree.nodes

theorem hasProduct_lam {name : String} {body : Tree} :
    HasProduct (.lam name body) ↔ HasProduct body := by
  simp [HasProduct, Tree.nodes]

theorem hasProduct_app {function argument : Tree} :
    HasProduct (.app function argument) ↔ HasProduct function ∨ HasProduct argument := by
  simp [HasProduct, Tree.nodes, exists_or]

theorem hasProduct_sup {label : UInt32} {left right : Tree} :
    HasProduct (.sup label left right) ↔ HasProduct left ∨ HasProduct right := by
  simp [HasProduct, Tree.nodes, exists_or]

theorem hasProduct_dup {label : UInt32} {first second : String} {value body : Tree} :
    HasProduct (.dup label first second value body) ↔ HasProduct value ∨ HasProduct body := by
  simp [HasProduct, Tree.nodes, exists_or]

theorem hasProduct_op2 {op : Operator} {left right : Tree} :
    HasProduct (.op2 op left right) ↔ op = .mul ∨ HasProduct left ∨ HasProduct right := by
  simp [HasProduct, Tree.nodes, exists_or, eq_comm]

theorem hasProduct_ctr {id : UInt32} {fields : List Tree} :
    HasProduct (.ctr id fields) ↔ ∃ field ∈ fields, HasProduct field := by
  simp only [HasProduct, Tree.nodes, List.mem_cons, reduceCtorEq, false_or, Tree.mem_nodesOfFields]
  constructor
  · rintro ⟨left, right, field, hfield, hnode⟩
    exact ⟨field, hfield, left, right, hnode⟩
  · rintro ⟨field, hfield, left, right, hnode⟩
    exact ⟨left, right, field, hfield, hnode⟩

theorem hasProduct_matching {scrutinee : Tree} {arms : List (UInt32 × Tree)} :
    HasProduct (.matching scrutinee arms) ↔
      HasProduct scrutinee ∨ ∃ arm ∈ arms, HasProduct arm.2 := by
  simp only [HasProduct, Tree.matching, Tree.nodes, List.mem_cons, reduceCtorEq, false_or,
    List.mem_append, Tree.mem_nodesOfArms, (Tree.sortArms_perm arms).mem_iff, exists_or]
  refine or_congr_right ⟨?_, ?_⟩
  · rintro ⟨left, right, arm, harm, hnode⟩
    exact ⟨arm, harm, left, right, hnode⟩
  · rintro ⟨arm, harm, left, right, hnode⟩
    exact ⟨left, right, arm, harm, hnode⟩

theorem hasProduct_applyAll {function : Tree} {arguments : List Tree} :
    HasProduct (function.applyAll arguments) ↔
      HasProduct function ∨ ∃ argument ∈ arguments, HasProduct argument := by
  induction arguments generalizing function with
  | nil => simp [Tree.applyAll]
  | cons argument arguments ih =>
    have hstep : function.applyAll (argument :: arguments) =
        (Tree.app function argument).applyAll arguments := rfl
    rw [hstep, ih, hasProduct_app]
    simp [or_assoc]

/-! ## From free readings to readings -/

/-- Items that are written anew with the same tokens. -/
theorem exists_items {ι : Type} {items : List ι} {tokens : ι → List Token} {Good Product : ι → Prop}
    (h : ∀ i ∈ items, ∃ j, Good j ∧ tokens j = tokens i ∧ (j = i ∨ Product j)) :
    ∃ others : List ι, (∀ j ∈ others, Good j) ∧ others.flatMap tokens = items.flatMap tokens ∧
      others.length = items.length ∧ (others = items ∨ ∃ j ∈ others, Product j) := by
  induction items with
  | nil => exact ⟨[], by simp, rfl, rfl, .inl rfl⟩
  | cons i items ih =>
    obtain ⟨⟨j, hgood, htokens, hj⟩, hitems⟩ := List.forall_mem_cons.mp h
    obtain ⟨others, hall, hflat, hlength, hothers⟩ := ih hitems
    refine ⟨j :: others, List.forall_mem_cons.mpr ⟨hgood, hall⟩, ?_, ?_, ?_⟩
    · rw [List.flatMap_cons, List.flatMap_cons, htokens, hflat]
    · rw [List.length_cons, List.length_cons, hlength]
    · rcases hj with rfl | hproduct
      · rcases hothers with rfl | ⟨k, hk, hproduct⟩
        · exact .inl rfl
        · exact .inr ⟨k, List.mem_cons_of_mem _ hk, hproduct⟩
      · exact .inr ⟨j, List.mem_cons_self, hproduct⟩

/-- Terms of a list that are derived anew from the same tokens. -/
theorem exists_written {items : List (Tree × List Token)}
    (h : ∀ item ∈ items, ∃ strict, Derives table strict item.2 ∧
      (strict = item.1 ∨ HasProduct strict)) :
    ∃ others : List (Tree × List Token), (∀ item ∈ others, Derives table item.1 item.2) ∧
      others.flatMap Prod.snd = items.flatMap Prod.snd ∧ others.length = items.length ∧
      (others = items ∨ ∃ item ∈ others, HasProduct item.1) := by
  refine exists_items fun item hitem => ?_
  obtain ⟨strict, hderives, hstrict⟩ := h item hitem
  exact ⟨(strict, item.2), hderives, rfl, hstrict.imp_left fun heq => Prod.ext heq rfl⟩

/-- Arms that are derived anew from the same tokens. -/
theorem exists_writtenArms {arms : List WrittenArm}
    (hnames : ∀ arm ∈ arms, NamesArm table arm.letters arm.id)
    (h : ∀ arm ∈ arms, ∃ strict, Derives table strict arm.bodyTokens ∧
      (strict = arm.body ∨ HasProduct strict)) :
    ∃ others : List WrittenArm,
      (∀ arm ∈ others, NamesArm table arm.letters arm.id ∧
        Derives table arm.body arm.bodyTokens) ∧
      others.flatMap WrittenArm.tokens = arms.flatMap WrittenArm.tokens ∧
      others.length = arms.length ∧ (others = arms ∨ ∃ arm ∈ others, HasProduct arm.body) := by
  refine exists_items fun arm harm => ?_
  obtain ⟨strict, hderives, hstrict⟩ := h arm harm
  refine ⟨{ arm with body := strict }, ⟨hnames arm harm, hderives⟩, rfl, ?_⟩
  exact hstrict.imp_left fun heq => by rw [heq]

/-- Two parts of a term are the same as before, or one of them has a product. -/
theorem same_or_product {first second left right : Tree} (hfirst : first = left ∨ HasProduct first)
    (hsecond : second = right ∨ HasProduct second) (build : Tree → Tree → Tree) :
    build first second = build left right ∨ HasProduct first ∨ HasProduct second := by
  rcases hfirst with rfl | hproduct
  · exact hsecond.imp (congrArg _) .inr
  · exact .inr (.inl hproduct)

/-- The application of a term to arguments, or the product if this has the same tokens. -/
theorem exists_derives_app {function : Tree} {arguments : List (Tree × List Token)}
    (hfunction : Derives table function tokens)
    (harguments : ∀ argument ∈ arguments, Derives table argument.1 argument.2)
    (hne : arguments ≠ []) :
    ∃ strict, Derives table strict (['('] :: (tokens ++ (arguments.flatMap Prod.snd ++ [[')']]))) ∧
      (strict = function.applyAll (arguments.map Prod.fst) ∨ HasProduct strict) := by
  by_cases hpair : function = .era ∧ arguments.length = 2
  · obtain ⟨rfl, hlength⟩ := hpair
    obtain rfl := hfunction.tokens_of_era
    obtain ⟨left, right, rfl⟩ := List.length_eq_two.mp hlength
    rw [List.forall_mem_cons, List.forall_mem_singleton] at harguments
    obtain ⟨hleft, hright⟩ := harguments
    refine ⟨.op2 .mul left.1 right.1, ?_, .inr (hasProduct_op2.mpr (.inl rfl))⟩
    have hproduct : Derives table (.op2 .mul left.1 right.1) _ := .op2 hleft hright
    have hsymbol : Operator.mul.symbol.toList = ['*'] := by decide
    rw [hsymbol] at hproduct
    simpa using hproduct
  · exact ⟨_, .app hfunction harguments hne hpair, .inl rfl⟩

/-- Tokens that are derived freely are derived, and for the same term unless a product stands in
place of an application. -/
theorem DerivesFreely.exists_derives (h : DerivesFreely table tree tokens) :
    ∃ strict, Derives table strict tokens ∧ (strict = tree ∨ HasProduct strict) := by
  induction h with
  | era => exact ⟨_, .era, .inl rfl⟩
  | ref hname => exact ⟨_, .ref hname, .inl rfl⟩
  | var hname hdigits => exact ⟨_, .var hname hdigits, .inl rfl⟩
  | u32 hdigits => exact ⟨_, .u32 hdigits, .inl rfl⟩
  | lam hname _ ih =>
    obtain ⟨body, hbody, hsame⟩ := ih
    refine ⟨_, .lam hname hbody, ?_⟩
    rw [hasProduct_lam]
    exact hsame.imp_left (congrArg _)
  | app _ _ hne ihfunction iharguments =>
    obtain ⟨function, hfunction, hsame⟩ := ihfunction
    obtain ⟨arguments, harguments, hflat, hlength, hothers⟩ := exists_written iharguments
    have hne' : arguments ≠ [] := by
      rintro rfl
      exact hne (List.eq_nil_of_length_eq_zero hlength.symm)
    obtain ⟨strict, hderives, hstrict⟩ := exists_derives_app hfunction harguments hne'
    rw [hflat] at hderives
    refine ⟨strict, hderives, ?_⟩
    rcases hstrict with rfl | hproduct
    · rw [hasProduct_applyAll]
      rcases hsame with rfl | hproduct
      · rcases hothers with rfl | ⟨argument, hmem, hproduct⟩
        · exact .inl rfl
        · exact .inr (.inr ⟨argument.1, List.mem_map_of_mem hmem, hproduct⟩)
      · exact .inr (.inl hproduct)
    · exact .inr hproduct
  | sup hdigits _ _ ihleft ihright =>
    obtain ⟨left, hleft, hsame⟩ := ihleft
    obtain ⟨right, hright, hsame'⟩ := ihright
    refine ⟨_, .sup hdigits hleft hright, ?_⟩
    rw [hasProduct_sup]
    exact same_or_product hsame hsame' (Tree.sup _)
  | dup hdigits hdp0 hdp1 _ _ ihvalue ihbody =>
    obtain ⟨value, hvalue, hsame⟩ := ihvalue
    obtain ⟨body, hbody, hsame'⟩ := ihbody
    refine ⟨_, .dup hdigits hdp0 hdp1 hvalue hbody, ?_⟩
    rw [hasProduct_dup]
    exact same_or_product hsame hsame' (Tree.dup _ _ _)
  | op2 _ _ ihleft ihright =>
    obtain ⟨left, hleft, hsame⟩ := ihleft
    obtain ⟨right, hright, hsame'⟩ := ihright
    refine ⟨_, .op2 hleft hright, ?_⟩
    rw [hasProduct_op2]
    exact (same_or_product hsame hsame' (Tree.op2 _)).imp_right .inr
  | ctr hname _ ih =>
    obtain ⟨fields, hfields, hflat, -, hothers⟩ := exists_written ih
    rw [← hflat]
    refine ⟨_, .ctr hname hfields, ?_⟩
    rcases hothers with rfl | ⟨field, hmem, hproduct⟩
    · exact .inl rfl
    · exact .inr (hasProduct_ctr.mpr ⟨field.1, List.mem_map_of_mem hmem, hproduct⟩)
  | @mat scrutinee tokens arms _ hnames _ ihscrutinee iharms =>
    obtain ⟨strict, hstrict, hsame⟩ := ihscrutinee
    obtain ⟨others, hall, hflat, -, hothers⟩ := exists_writtenArms hnames iharms
    rw [← hflat]
    refine ⟨_, .mat hstrict (fun arm harm => (hall arm harm).1)
      (fun arm harm => (hall arm harm).2), ?_⟩
    rw [hasProduct_matching]
    rcases hsame with rfl | hproduct
    · rcases hothers with rfl | ⟨arm, hmem, hproduct⟩
      · exact .inl rfl
      · exact .inr (.inr ⟨arm.arm, List.mem_map_of_mem hmem, hproduct⟩)
    · exact .inr (.inl hproduct)

/-! ## From readings to free readings -/

theorem applyAll_inj {function other : Tree} {arguments others : List Tree}
    (hlength : arguments.length = others.length)
    (h : function.applyAll arguments = other.applyAll others) :
    function = other ∧ arguments = others := by
  induction arguments generalizing function other others with
  | nil =>
    obtain rfl := List.eq_nil_of_length_eq_zero hlength.symm
    exact ⟨h, rfl⟩
  | cons argument arguments ih =>
    cases others with
    | nil => cases hlength
    | cons last others =>
      obtain ⟨happ, rfl⟩ := ih (Nat.succ.inj hlength) h
      cases happ
      exact ⟨rfl, rfl⟩

/-- One item of a list stands in place of another that has the same tokens: even in another order,
the items are not those from before. -/
theorem exists_replaced {ι α : Type} {items : List ι} {Good : ι → Prop} (tokens : ι → List Token)
    (value : ι → α) {i : ι} (j : ι) (hitems : ∀ k ∈ items, Good k) (hi : i ∈ items) (hj : Good j)
    (htokens : tokens j = tokens i) (hvalue : value j ≠ value i) :
    ∃ others : List ι, (∀ k ∈ others, Good k) ∧ others.flatMap tokens = items.flatMap tokens ∧
      others.length = items.length ∧ ¬ (others.map value).Perm (items.map value) := by
  obtain ⟨front, back, rfl⟩ := List.append_of_mem hi
  obtain ⟨hfront, hrest⟩ := List.forall_mem_append.mp hitems
  obtain ⟨-, hback⟩ := List.forall_mem_cons.mp hrest
  refine ⟨front ++ j :: back, ?_, by simp [htokens], by simp, ?_⟩
  · exact List.forall_mem_append.mpr ⟨hfront, List.forall_mem_cons.mpr ⟨hj, hback⟩⟩
  · classical
    intro hperm
    rw [List.map_append, List.map_append, List.perm_append_left_iff, List.map_cons,
      List.map_cons] at hperm
    have hcount := hperm.count_eq (value j)
    rw [List.count_cons_self, List.count_cons_of_ne (Ne.symm hvalue)] at hcount
    omega

/-- Of terms in a list, one with a product can be replaced. -/
theorem exists_written_ne {items : List (Tree × List Token)}
    (hitems : ∀ item ∈ items, Derives table item.1 item.2)
    (hothers : ∀ item ∈ items, HasProduct item.1 →
      ∃ other, DerivesFreely table other item.2 ∧ other ≠ item.1)
    (hproduct : ∃ part ∈ items.map Prod.fst, HasProduct part) :
    ∃ others : List (Tree × List Token),
      (∀ item ∈ others, DerivesFreely table item.1 item.2) ∧
      others.flatMap Prod.snd = items.flatMap Prod.snd ∧ others.length = items.length ∧
      others.map Prod.fst ≠ items.map Prod.fst := by
  obtain ⟨part, hpart, hproduct⟩ := hproduct
  obtain ⟨item, hmem, rfl⟩ := List.mem_map.mp hpart
  obtain ⟨other, hfree, hne⟩ := hothers item hmem hproduct
  have hall : ∀ item ∈ items, DerivesFreely table item.1 item.2 :=
    fun item hmem => (hitems item hmem).freely
  obtain ⟨others, hgood, hflat, hlength, hperm⟩ :=
    exists_replaced Prod.snd Prod.fst (other, item.2) hall hmem hfree rfl hne
  exact ⟨others, hgood, hflat, hlength, fun heq => hperm (heq ▸ .refl _)⟩

/-- Of arms, one with a product can be replaced. -/
theorem exists_writtenArms_ne {arms : List WrittenArm}
    (hnames : ∀ arm ∈ arms, NamesArm table arm.letters arm.id)
    (harms : ∀ arm ∈ arms, Derives table arm.body arm.bodyTokens)
    (hothers : ∀ arm ∈ arms, HasProduct arm.body →
      ∃ other, DerivesFreely table other arm.bodyTokens ∧ other ≠ arm.body)
    (hproduct : ∃ arm ∈ arms.map WrittenArm.arm, HasProduct arm.2) :
    ∃ others : List WrittenArm,
      (∀ arm ∈ others, NamesArm table arm.letters arm.id ∧
        DerivesFreely table arm.body arm.bodyTokens) ∧
      others.flatMap WrittenArm.tokens = arms.flatMap WrittenArm.tokens ∧
      ¬ (others.map WrittenArm.arm).Perm (arms.map WrittenArm.arm) := by
  obtain ⟨pair, hpair, hproduct⟩ := hproduct
  obtain ⟨arm, hmem, rfl⟩ := List.mem_map.mp hpair
  obtain ⟨other, hfree, hne⟩ := hothers arm hmem hproduct
  have hall : ∀ arm ∈ arms, NamesArm table arm.letters arm.id ∧
      DerivesFreely table arm.body arm.bodyTokens :=
    fun arm hmem => ⟨hnames arm hmem, (harms arm hmem).freely⟩
  have hvalue : WrittenArm.arm { arm with body := other } ≠ arm.arm :=
    fun heq => hne (congrArg Prod.snd heq)
  obtain ⟨others, hgood, hflat, -, hperm⟩ :=
    exists_replaced WrittenArm.tokens WrittenArm.arm { arm with body := other } hall hmem
      ⟨hnames arm hmem, hfree⟩ rfl hvalue
  exact ⟨others, hgood, hflat, hperm⟩

/-- A product is also written as the application of an erasure. -/
theorem derivesFreely_era {left right : Tree} {first second : List Token}
    (hleft : DerivesFreely table left first) (hright : DerivesFreely table right second) :
    DerivesFreely table (.app (.app .era left) right)
      (['('] :: Operator.mul.symbol.toList :: (first ++ (second ++ [[')']]))) := by
  have harguments : ∀ argument ∈ [(left, first), (right, second)],
      DerivesFreely table argument.1 argument.2 := by
    rw [List.forall_mem_cons, List.forall_mem_singleton]
    exact ⟨hleft, hright⟩
  have hsymbol : Operator.mul.symbol.toList = ['*'] := by decide
  have happ := DerivesFreely.app .era harguments (List.cons_ne_nil _ _)
  rw [hsymbol]
  simpa [Tree.applyAll] using happ

/-- A product can be taken for the application of an erasure. -/
theorem Derives.exists_derivesFreely (h : Derives table tree tokens) (hproduct : HasProduct tree) :
    ∃ other, DerivesFreely table other tokens ∧ other ≠ tree := by
  induction h with
  | era | ref _ | var _ _ | u32 _ => simp [HasProduct, Tree.nodes] at hproduct
  | lam hname _ ih =>
    obtain ⟨body, hbody, hne⟩ := ih (hasProduct_lam.mp hproduct)
    exact ⟨_, .lam hname hbody, by simpa using hne⟩
  | app hfunction harguments hne _ ihfunction iharguments =>
    rcases hasProduct_applyAll.mp hproduct with hproduct | hproduct
    · obtain ⟨function, hfree, hother⟩ := ihfunction hproduct
      refine ⟨_, .app hfree (fun argument hmem => (harguments argument hmem).freely) hne, ?_⟩
      exact fun heq => hother (applyAll_inj rfl heq).1
    · obtain ⟨others, hall, hflat, hlength, hother⟩ :=
        exists_written_ne harguments iharguments hproduct
      have hne' : others ≠ [] := by
        rintro rfl
        exact hne (List.eq_nil_of_length_eq_zero hlength.symm)
      rw [← hflat]
      refine ⟨_, .app hfunction.freely hall hne', ?_⟩
      exact fun heq => hother (applyAll_inj (by simpa using hlength) heq).2
  | sup hdigits hleft hright ihleft ihright =>
    rcases hasProduct_sup.mp hproduct with hproduct | hproduct
    · obtain ⟨other, hfree, hne⟩ := ihleft hproduct
      exact ⟨_, .sup hdigits hfree hright.freely, by simpa using hne⟩
    · obtain ⟨other, hfree, hne⟩ := ihright hproduct
      exact ⟨_, .sup hdigits hleft.freely hfree, by simpa using hne⟩
  | dup hdigits hdp0 hdp1 hvalue hbody ihvalue ihbody =>
    rcases hasProduct_dup.mp hproduct with hproduct | hproduct
    · obtain ⟨other, hfree, hne⟩ := ihvalue hproduct
      exact ⟨_, .dup hdigits hdp0 hdp1 hfree hbody.freely, by simpa using hne⟩
    · obtain ⟨other, hfree, hne⟩ := ihbody hproduct
      exact ⟨_, .dup hdigits hdp0 hdp1 hvalue.freely hfree, by simpa using hne⟩
  | ctr hname hfields ih =>
    obtain ⟨others, hall, hflat, -, hne⟩ :=
      exists_written_ne hfields ih (hasProduct_ctr.mp hproduct)
    rw [← hflat]
    exact ⟨_, .ctr hname hall, by simpa using hne⟩
  | mat hscrutinee hnames harms ihscrutinee iharms =>
    rcases hasProduct_matching.mp hproduct with hproduct | hproduct
    · obtain ⟨other, hfree, hne⟩ := ihscrutinee hproduct
      refine ⟨_, .mat hfree hnames fun arm harm => (harms arm harm).freely, ?_⟩
      simpa [Tree.matching] using hne
    · obtain ⟨others, hall, hflat, hperm⟩ := exists_writtenArms_ne hnames harms iharms hproduct
      rw [← hflat]
      refine ⟨_, .mat hscrutinee.freely (fun arm harm => (hall arm harm).1)
        (fun arm harm => (hall arm harm).2), ?_⟩
      intro heq
      -- Sorted arms are the same arms.
      have hsorted := (Tree.mat.inj heq).2
      exact hperm ((Tree.sortArms_perm _).symm.trans (hsorted ▸ Tree.sortArms_perm _))
  | op2 hleft hright ihleft ihright =>
    rcases hasProduct_op2.mp hproduct with rfl | hproduct | hproduct
    · exact ⟨_, derivesFreely_era hleft.freely hright.freely, nofun⟩
    · obtain ⟨other, hfree, hne⟩ := ihleft hproduct
      exact ⟨_, .op2 hfree hright.freely, by simpa using hne⟩
    · obtain ⟨other, hfree, hne⟩ := ihright hproduct
      exact ⟨_, .op2 hleft.freely hfree, by simpa using hne⟩

/-! ## Texts with two readings -/

/-- A text has two free readings exactly when it is a reading of a term with a product. -/
theorem two_freeReadings_iff {text : List Char} :
    (∃ first second, first ≠ second ∧ IsFreeReading table first text ∧
      IsFreeReading table second text) ↔
      ∃ tree, IsReading table tree text ∧ HasProduct tree := by
  constructor
  · rintro ⟨first, second, hne, ⟨tokens, rest, hfirst, hscans, hroom⟩,
      ⟨others, rest', hsecond, hscans', hroom'⟩⟩
    obtain ⟨strict, hstrict, hsame⟩ := hfirst.exists_derives
    obtain ⟨other, hother, hsame'⟩ := hsecond.exists_derives
    have hreading : IsReading table strict text := ⟨tokens, rest, hstrict, hscans, hroom⟩
    obtain rfl := hreading.unique ⟨others, rest', hother, hscans', hroom'⟩
    rcases hsame with rfl | hproduct
    · exact ⟨_, hreading, hsame'.resolve_left hne⟩
    · exact ⟨_, hreading, hproduct⟩
  · rintro ⟨tree, ⟨tokens, rest, hderives, hscans, hroom⟩, hproduct⟩
    obtain ⟨other, hother, hne⟩ := hderives.exists_derivesFreely hproduct
    exact ⟨other, tree, hne, ⟨tokens, rest, hother, hscans, hroom⟩,
      ⟨tokens, rest, hderives.freely, hscans, hroom⟩⟩

end Grammar

open Grammar

/-- What is read is the one reading of the whole text: cut into tokens from the left, each of these
and each gap as long as it can be, the text derives this term and no other.  Were a list of `*` and
two arguments an application as well, then the texts with several readings would be those of the
terms with a product. -/
theorem Tree.read_sound (table : ConstructorTable) (text : String) :
    (∀ tree, Tree.read table text = .ok tree → IsReading table tree text.toList ∧
      ∀ other, IsReading table other text.toList → other = tree) ∧
    ((∃ first second, first ≠ second ∧ IsFreeReading table first text.toList ∧
      IsFreeReading table second text.toList) ↔
      ∃ tree, IsReading table tree text.toList ∧ HasProduct tree) := by
  refine ⟨fun tree h => ?_, two_freeReadings_iff⟩
  have hreading := Tree.isReading_of_read h
  exact ⟨hreading, fun other hother => hreading.unique hother⟩

/-- A product, which could be the application of an erasure to two arguments. -/
theorem Tree.read_sound_product :
    IsReading .empty (.op2 .mul (.u32 2) (.var "x")) "(* 2 x)".toList ∧
      ∃ first second, first ≠ second ∧ IsFreeReading .empty first "(* 2 x)".toList ∧
        IsFreeReading .empty second "(* 2 x)".toList := by
  have htwo : Derives .empty (.u32 2) [['2']] := .u32 ⟨by decide, by decide, by decide⟩
  have hx : Derives .empty (.var "x") [['x']] := .var ⟨by decide, by decide⟩ (by decide)
  have htokens : Derives .empty (.op2 .mul (.u32 2) (.var "x"))
      [['('], ['*'], ['2'], ['x'], [')']] := .op2 htwo hx
  have hspace : IsGap [' '] := .blank (by decide) .nil
  have hargument : Spells [['x'], [')']] [' ', 'x', ')'] :=
    .cons hspace (by decide) (.cons .nil (by decide) (.nil .nil))
  have htext : Spells [['('], ['*'], ['2'], ['x'], [')']] "(* 2 x)".toList :=
    .cons .nil (by decide) (.cons .nil (by decide) (.cons hspace (by decide) hargument))
  have hread : Tree.read .empty "(* 2 x)" = .ok (.op2 .mul (.u32 2) (.var "x")) :=
    Tree.read_of_isSpelling ⟨_, htokens, htext⟩
  obtain ⟨hsound, htwice⟩ := Tree.read_sound .empty "(* 2 x)"
  have hreading := (hsound _ hread).1
  have hproduct : HasProduct (.op2 .mul (.u32 2) (.var "x")) := hasProduct_op2.mpr (.inl rfl)
  exact ⟨hreading, htwice.mpr ⟨_, hreading, hproduct⟩⟩

end InteractionGraph
