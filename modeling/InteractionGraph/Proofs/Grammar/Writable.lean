import InteractionGraph.Proofs.Grammar.Spelling

/-!
# The terms that have a spelling

`Writable` asks of each node what the rules of the grammar ask of it.  So the terms that are derived
are writable (`Derives.writable`), and for a writable term tokens can be chosen node by node
(`exists_derives`): the decimal numerals of numbers, some name of each constructor, the arms in the
order in which the term has them, and a list of its own for each application.

Every list of tokens can be laid out, for instance with a space before each of them
(`exists_spells`).
-/

namespace InteractionGraph.Grammar

open Text

variable {table : ConstructorTable} {tree : Tree} {tokens : List Token}

/-! ## Writable terms, node by node -/

theorem writable_lam {name : String} {body : Tree} :
    Writable table (.lam name body) ↔ IsName name ∧ Writable table body := by
  simp [Writable, Tree.nodes, NodeWritable]

theorem writable_app {function argument : Tree} :
    Writable table (.app function argument) ↔
      Writable table function ∧ Writable table argument := by
  simp [Writable, Tree.nodes, NodeWritable, or_imp, forall_and]

theorem writable_sup {label : UInt32} {left right : Tree} :
    Writable table (.sup label left right) ↔ Writable table left ∧ Writable table right := by
  simp [Writable, Tree.nodes, NodeWritable, or_imp, forall_and]

theorem writable_dup {label : UInt32} {first second : String} {value body : Tree} :
    Writable table (.dup label first second value body) ↔
      (IsName first ∧ IsName second) ∧ Writable table value ∧ Writable table body := by
  simp [Writable, Tree.nodes, NodeWritable, or_imp, forall_and]

theorem writable_op2 {operator : Operator} {left right : Tree} :
    Writable table (.op2 operator left right) ↔ Writable table left ∧ Writable table right := by
  simp [Writable, Tree.nodes, NodeWritable, or_imp, forall_and]

theorem writable_ctr {id : UInt32} {fields : List Tree} :
    Writable table (.ctr id fields) ↔
      (∃ letters, NamesConstructor table letters id) ∧ ∀ field ∈ fields, Writable table field := by
  simp only [Writable, Tree.nodes, List.forall_mem_cons, NodeWritable, Tree.mem_nodesOfFields]
  constructor
  · rintro ⟨hname, hfields⟩
    exact ⟨hname, fun field hfield node hnode => hfields node ⟨field, hfield, hnode⟩⟩
  · rintro ⟨hname, hfields⟩
    refine ⟨hname, ?_⟩
    rintro node ⟨field, hfield, hnode⟩
    exact hfields field hfield node hnode

theorem writable_mat {scrutinee : Tree} {arms : List (UInt32 × Tree)} :
    Writable table (.mat scrutinee arms) ↔
      NodeWritable table (.mat scrutinee arms) ∧ Writable table scrutinee ∧
        ∀ arm ∈ arms, Writable table arm.2 := by
  simp only [Writable, Tree.nodes, List.forall_mem_cons, List.forall_mem_append,
    Tree.mem_nodesOfArms]
  constructor
  · rintro ⟨hnode, hscrutinee, harms⟩
    exact ⟨hnode, hscrutinee, fun arm harm node hmem => harms node ⟨arm, harm, hmem⟩⟩
  · rintro ⟨hnode, hscrutinee, harms⟩
    refine ⟨hnode, hscrutinee, ?_⟩
    rintro node ⟨arm, harm, hmem⟩
    exact harms arm harm node hmem

theorem writable_applyAll {function : Tree} {arguments : List Tree} :
    Writable table (function.applyAll arguments) ↔
      Writable table function ∧ ∀ argument ∈ arguments, Writable table argument := by
  induction arguments generalizing function with
  | nil => simp [Tree.applyAll]
  | cons argument arguments ih =>
    have hstep : function.applyAll (argument :: arguments) =
        (Tree.app function argument).applyAll arguments := rfl
    rw [hstep, ih, writable_app, List.forall_mem_cons, and_assoc]

/-! ## The order of arms -/

theorem trans_arms (first second third : UInt32 × Tree) (h : decide (first.1 ≤ second.1) = true)
    (h' : decide (second.1 ≤ third.1) = true) : decide (first.1 ≤ third.1) = true := by
  rw [decide_eq_true_eq] at *
  exact UInt32.le_trans h h'

theorem total_arms (first second : UInt32 × Tree) :
    (decide (first.1 ≤ second.1) || decide (second.1 ≤ first.1)) = true := by
  rw [Bool.or_eq_true, decide_eq_true_eq, decide_eq_true_eq]
  exact UInt32.le_total first.1 second.1

theorem pairwise_sortArms (arms : List (UInt32 × Tree)) :
    (Tree.sortArms arms).Pairwise fun first second => first.1 ≤ second.1 := by
  have hsorted := List.pairwise_mergeSort trans_arms total_arms arms
  simp only [decide_eq_true_eq] at hsorted
  exact hsorted

/-- Arms that are in order among the others stay so. -/
theorem sublist_sortArms {part arms : List (UInt32 × Tree)}
    (h : part.Pairwise fun first second => first.1 ≤ second.1) (hpart : part.Sublist arms) :
    part.Sublist (Tree.sortArms arms) :=
  List.sublist_mergeSort trans_arms total_arms (by simpa using h) hpart

theorem sortArms_of_pairwise {arms : List (UInt32 × Tree)}
    (h : arms.Pairwise fun first second => first.1 ≤ second.1) : Tree.sortArms arms = arms :=
  List.mergeSort_of_pairwise (by simpa using h)

/-! ## What is derived is writable -/

theorem Derives.writable (h : Derives table tree tokens) : Writable table tree := by
  induction h with
  | era | u32 _ => simp [Writable, Tree.nodes, NodeWritable]
  | lam hname _ ih => exact writable_lam.mpr ⟨hname, ih⟩
  | app _ _ _ _ ihfunction iharguments =>
    refine writable_applyAll.mpr ⟨ihfunction, ?_⟩
    intro argument hmem
    obtain ⟨written, hwritten, rfl⟩ := List.mem_map.mp hmem
    exact iharguments written hwritten
  | sup _ _ _ ihleft ihright => exact writable_sup.mpr ⟨ihleft, ihright⟩
  | dup _ hdp0 hdp1 _ _ ihvalue ihbody =>
    exact writable_dup.mpr ⟨⟨hdp0, hdp1⟩, ihvalue, ihbody⟩
  | ref hname => simpa [Writable, Tree.nodes, NodeWritable] using hname
  | var hname hdigits =>
    have hnode : NodeWritable table (.var _) := ⟨hname, hdigits⟩
    simpa [Writable, Tree.nodes] using hnode
  | ctr hname _ ih =>
    refine writable_ctr.mpr ⟨⟨_, hname⟩, ?_⟩
    intro field hmem
    obtain ⟨written, hwritten, rfl⟩ := List.mem_map.mp hmem
    exact ih written hwritten
  | mat _ hnames _ ihscrutinee iharms =>
    have hmem : ∀ {arm arms}, arm ∈ Tree.sortArms (List.map WrittenArm.arm arms) →
        ∃ written ∈ arms, written.arm = arm := by
      intro arm arms harm
      exact List.mem_map.mp ((Tree.sortArms_perm _).mem_iff.mp harm)
    refine writable_mat.mpr ⟨⟨pairwise_sortArms _, ?_⟩, ihscrutinee, ?_⟩
    · intro arm harm
      obtain ⟨written, hwritten, rfl⟩ := hmem harm
      exact ⟨written.letters, hnames written hwritten⟩
    · intro arm harm
      obtain ⟨written, hwritten, rfl⟩ := hmem harm
      exact iharms written hwritten
  | op2 _ _ ihleft ihright => exact writable_op2.mpr ⟨ihleft, ihright⟩

/-! ## What is writable is derived -/

/-- Every word has a numeral. -/
theorem isNumeral_toDigits (value : UInt32) : IsNumeral (Nat.toDigits 10 value.toNat) value :=
  ⟨Nat.toDigits_ne_nil,
    fun _ hc => Nat.isDigit_of_mem_toDigits (by decide) (by decide) hc,
    Nat.ofDigitChars_ten_toDigits⟩

mutual

theorem exists_derives {tree : Tree} (h : Writable table tree) :
    ∃ tokens, Derives table tree tokens := by
  cases tree with
  | era => exact ⟨_, .era⟩
  | lam name body =>
    obtain ⟨hname, hbody⟩ := writable_lam.mp h
    obtain ⟨tokens, htokens⟩ := exists_derives hbody
    exact ⟨_, .lam hname htokens⟩
  | app function argument =>
    obtain ⟨hfunction, hargument⟩ := writable_app.mp h
    obtain ⟨first, hfirst⟩ := exists_derives hfunction
    obtain ⟨second, hsecond⟩ := exists_derives hargument
    have harguments : ∀ written ∈ [(argument, second)], Derives table written.1 written.2 := by
      simpa using hsecond
    have hderives := Derives.app hfirst harguments (List.cons_ne_nil _ _) (by simp)
    exact ⟨_, hderives⟩
  | sup label left right =>
    obtain ⟨hleft, hright⟩ := writable_sup.mp h
    obtain ⟨first, hfirst⟩ := exists_derives hleft
    obtain ⟨second, hsecond⟩ := exists_derives hright
    exact ⟨_, .sup (isNumeral_toDigits label) hfirst hsecond⟩
  | dup label dp0 dp1 value body =>
    obtain ⟨⟨hdp0, hdp1⟩, hvalue, hbody⟩ := writable_dup.mp h
    obtain ⟨first, hfirst⟩ := exists_derives hvalue
    obtain ⟨second, hsecond⟩ := exists_derives hbody
    exact ⟨_, .dup (isNumeral_toDigits label) hdp0 hdp1 hfirst hsecond⟩
  | ref name id? =>
    obtain ⟨hname, rfl⟩ := h (.ref name id?) (by simp [Tree.nodes])
    exact ⟨_, .ref hname⟩
  | var name =>
    obtain ⟨hname, hdigits⟩ := h (.var name) (by simp [Tree.nodes])
    exact ⟨_, .var hname hdigits⟩
  | ctr id fields =>
    obtain ⟨⟨letters, hname⟩, hfields⟩ := writable_ctr.mp h
    obtain ⟨written, rfl, hwritten⟩ := exists_derives_fields hfields
    exact ⟨_, .ctr hname hwritten⟩
  | mat scrutinee arms =>
    obtain ⟨⟨hsorted, hnames⟩, hscrutinee, harms⟩ := writable_mat.mp h
    obtain ⟨tokens, htokens⟩ := exists_derives hscrutinee
    obtain ⟨written, rfl, hwritten⟩ := exists_derives_arms hnames harms
    have hderives := Derives.mat htokens (fun arm harm => (hwritten arm harm).1)
      (fun arm harm => (hwritten arm harm).2)
    rw [Tree.matching, sortArms_of_pairwise hsorted] at hderives
    exact ⟨_, hderives⟩
  | op2 operator left right =>
    obtain ⟨hleft, hright⟩ := writable_op2.mp h
    obtain ⟨first, hfirst⟩ := exists_derives hleft
    obtain ⟨second, hsecond⟩ := exists_derives hright
    exact ⟨_, .op2 hfirst hsecond⟩
  | u32 value => exact ⟨_, .u32 (isNumeral_toDigits value)⟩

theorem exists_derives_fields {fields : List Tree} (h : ∀ field ∈ fields, Writable table field) :
    ∃ written : List (Tree × List Token), written.map Prod.fst = fields ∧
      ∀ field ∈ written, Derives table field.1 field.2 := by
  cases fields with
  | nil => exact ⟨[], rfl, by simp⟩
  | cons field fields =>
    obtain ⟨hfield, hfields⟩ := List.forall_mem_cons.mp h
    obtain ⟨tokens, htokens⟩ := exists_derives hfield
    obtain ⟨written, rfl, hwritten⟩ := exists_derives_fields hfields
    exact ⟨(field, tokens) :: written, rfl, List.forall_mem_cons.mpr ⟨htokens, hwritten⟩⟩

theorem exists_derives_arms {arms : List (UInt32 × Tree)}
    (hnames : ∀ arm ∈ arms, ∃ letters, NamesArm table letters arm.1)
    (h : ∀ arm ∈ arms, Writable table arm.2) :
    ∃ written : List WrittenArm, written.map WrittenArm.arm = arms ∧
      ∀ arm ∈ written, NamesArm table arm.letters arm.id ∧
        Derives table arm.body arm.bodyTokens := by
  cases arms with
  | nil => exact ⟨[], rfl, by simp⟩
  | cons arm arms =>
    obtain ⟨id, body⟩ := arm
    obtain ⟨⟨letters, hletters⟩, hothers⟩ := List.forall_mem_cons.mp hnames
    obtain ⟨hbody, harms⟩ := List.forall_mem_cons.mp h
    obtain ⟨tokens, htokens⟩ := exists_derives hbody
    obtain ⟨written, rfl, hwritten⟩ := exists_derives_arms hothers harms
    exact ⟨⟨letters, id, body, tokens⟩ :: written, rfl,
      List.forall_mem_cons.mpr ⟨⟨hletters, htokens⟩, hwritten⟩⟩

end

/-! ## Layout -/

/-- Every list of tokens can be laid out. -/
theorem exists_spells (tokens : List Token) : ∃ text, Spells tokens text := by
  -- A space before each token keeps it apart from the one before.
  suffices hspaced : ∃ text, Spells tokens text ∧ ∀ c ∈ text.head?, c = ' ' by
    obtain ⟨text, htext, _⟩ := hspaced
    exact ⟨text, htext⟩
  induction tokens with
  | nil => exact ⟨[], .nil .nil, by simp⟩
  | cons token tokens ih =>
    obtain ⟨text, htext, hspace⟩ := ih
    have hapart : Apart token text := by
      constructor
      · intro _ _ d hd _
        rw [hspace d hd]
        decide
      · intro _ hslash
        exact absurd (hspace '/' hslash) (by decide)
    exact ⟨[' '] ++ (token ++ text), .cons (.blank (by decide) .nil) hapart htext, by simp⟩

/-- The terms that have a spelling are those that can be written. -/
theorem writable_iff_exists_isSpelling :
    Writable table tree ↔ ∃ text, IsSpelling table tree text := by
  constructor
  · intro h
    obtain ⟨tokens, htokens⟩ := exists_derives h
    obtain ⟨text, htext⟩ := exists_spells tokens
    exact ⟨text, tokens, htokens, htext⟩
  · rintro ⟨text, tokens, htokens, _⟩
    exact htokens.writable

end InteractionGraph.Grammar
