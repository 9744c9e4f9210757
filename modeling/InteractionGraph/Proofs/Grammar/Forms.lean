import InteractionGraph.Proofs.Grammar.Lexeme

/-!
# Reading one form of a term

`Readable` says of a term and its tokens that wherever these are laid out in a text, the parser of
terms reads the term and stops where they end.  For each rule of `Derives` there is a lemma that
shows it of the whole, given that it holds of the parts.

In most rules the first character tells which alternative is meant, and the ones that are tried
before it fail on the spot (`refuses_alternatives`).
-/

namespace InteractionGraph.Grammar

open Parse Parser Text

variable {table : ConstructorTable} {inner : Parser Tree} {text after rest : List Char}
  {tree : Tree}

/-! ## Terms, wherever they are -/

/-- A parser that takes fuel reads a value in a text, with as much fuel as the text is long.  The
value begins like a term. -/
structure ReadsItem {α : Type} (item : Nat → Parser α) (text : List Char) (value : α)
    (rest : List Char) : Prop where
  opens : ∃ c after, Reads blank text () (c :: after) ∧ Opens c
  shorter : rest.length < text.length
  reads : ∀ fuel, text.length < fuel → Reads (item fuel) text value rest

/-- The tokens are read as the value, whatever tokens follow. -/
def ReadableItem {α : Type} (item : Nat → Parser α) (value : α) (tokens : List Token) : Prop :=
  ∀ more text, Spells (tokens ++ more) text →
    ∃ rest, ReadsItem item text value rest ∧ Spells more rest

/-- The parser of terms reads a term in a text. -/
abbrev ReadsTerm (table : ConstructorTable) : List Char → Tree → List Char → Prop :=
  ReadsItem (termUpTo blank table)

/-- The tokens are read as the term, whatever tokens follow. -/
abbrev Readable (table : ConstructorTable) : Tree → List Token → Prop :=
  ReadableItem (termUpTo blank table)

/-! ## The alternatives -/

/-- The forms of a term in the order in which they are tried. -/
def alternatives (inner : Parser Tree) (table : ConstructorTable) : List (Parser Tree) :=
  [erasure, lambda blank inner, operatorApplication blank inner, application blank inner,
    superposition blank inner, duplication blank inner, reference, constructor blank inner table,
    matching blank inner table, atom]

/-- The characters that the alternatives begin with, except for the last of them. -/
def heads : List Char := ['*', 'λ', '(', '(', '&', '!', '@', '#', '~']

theorem form_eq :
    form blank inner table = blank >>= fun _ => choice (alternatives inner table) := rfl

/-- A rule that begins with one character fails on every other. -/
theorem refuses_of_ne {α : Type} {what : Construct} {c d : Char} {next : Unit → Parser α}
    (h : c ≠ d) (after : List Char) : Refuses (named what (char d >>= next)) (c :: after) :=
  .named (.bind (.char (by simpa using h)))

/-- The alternatives that begin with other characters fail. -/
theorem refuses_alternatives {c : Char} (place : Nat) (h : c ∉ heads.take place)
    (hplace : place ≤ heads.length) :
    ∀ q ∈ (alternatives inner table).take place, Refuses q (c :: after) := by
  have hpair : ∀ q d, (q, d) ∈ (alternatives inner table).zip heads → c ≠ d →
      Refuses q (c :: after) := by
    intro q d hmem hne
    simp only [alternatives, heads, List.zip_cons_cons, List.zip_nil_right, List.mem_cons,
      Prod.mk.injEq, List.not_mem_nil, or_false] at hmem
    rcases hmem with ⟨rfl, rfl⟩ | ⟨rfl, rfl⟩ | ⟨rfl, rfl⟩ | ⟨rfl, rfl⟩ | ⟨rfl, rfl⟩ | ⟨rfl, rfl⟩ |
      ⟨rfl, rfl⟩ | ⟨rfl, rfl⟩ | ⟨rfl, rfl⟩ <;> exact refuses_of_ne hne after
  intro q hq
  obtain ⟨i, hi, rfl⟩ := List.mem_iff_getElem.mp hq
  rw [List.length_take, Nat.lt_min] at hi
  have hheads : i < heads.length := Nat.lt_of_lt_of_le hi.1 hplace
  rw [List.getElem_take]
  refine hpair _ heads[i] (List.mem_iff_getElem.mpr ⟨i, ?_, List.getElem_zip⟩) ?_
  · rw [List.length_zip, Nat.lt_min]
    exact ⟨hi.2, hheads⟩
  · rintro rfl
    exact h (List.mem_take_iff_getElem.mpr ⟨i, Nat.lt_min.mpr ⟨hi.1, hheads⟩, rfl⟩)

theorem Opens.ne {c d : Char} (h : Opens c) (hd : ¬ Opens d) : c ≠ d := by
  rintro rfl
  exact hd h

/-- Without a name there is no variable and no integer. -/
theorem refuses_atom (h : Stops isNameChar text) : Refuses atom text := by
  unfold atom name
  exact .verify (.named (.named (.bind
    ((ReadsMany.nil (.satisfy h)).manyAtLeast_refuses (Nat.zero_lt_one)))))

/-- No term begins with any other character. -/
theorem refuses_form {c : Char} (hroom : Reads blank text () (c :: after)) (hc : ¬ Opens c) :
    Refuses (form blank inner table) text := by
  rw [form_eq]
  refine hroom.bind_refuses (.choice ?_)
  have hheads : c ∉ heads := by
    intro hmem
    have hall : ∀ d ∈ heads, Opens d := by decide
    exact hc (hall c hmem)
  have htake : ∀ q ∈ (alternatives inner table).take 9, Refuses q (c :: after) :=
    refuses_alternatives 9 hheads (Nat.le_refl 9)
  have hstops : Stops isNameChar (c :: after) := by
    rintro d ⟨⟩
    apply Bool.eq_false_iff.mpr
    intro hname
    exact hc (.inr hname)
  intro q hq
  rcases List.mem_append.mp
    (show q ∈ (alternatives inner table).take 9 ++ [atom] from hq) with h | h
  · exact htake q h
  · rw [List.mem_singleton.mp h]
    exact refuses_atom hstops

theorem refuses_termUpTo {c : Char} (hroom : Reads blank text () (c :: after)) (hc : ¬ Opens c)
    (fuel : Nat) : Refuses (termUpTo blank table fuel) text := by
  cases fuel with
  | zero => exact .fail text
  | succ fuel => exact refuses_form hroom hc

/-- An alternative is read if those before it begin with other characters. -/
theorem reads_alternative {c : Char} {p : Parser Tree} (place : Nat)
    (hplace : (alternatives inner table)[place]? = some p)
    (hfirst : place ≤ heads.length ∧ c ∉ heads.take place) (h : Reads p (c :: after) tree rest) :
    Reads (choice (alternatives inner table)) (c :: after) tree rest :=
  .choice_of_getElem? place hplace (refuses_alternatives place hfirst.2 hfirst.1) h

/-- A form is read behind the room before it. -/
theorem ReadsItem.of_alternative {c : Char} (hroom : Reads blank text () (c :: after))
    (hopens : Opens c) (hshorter : rest.length < text.length)
    (h : ∀ fuel, text.length ≤ fuel →
      Reads (choice (alternatives (termUpTo blank table fuel) table)) (c :: after) tree rest) :
    ReadsTerm table text tree rest where
  opens := ⟨c, after, hroom, hopens⟩
  shorter := hshorter
  reads := by
    intro fuel hfuel
    cases fuel with
    | zero => exact absurd hfuel (Nat.not_lt_zero _)
    | succ fuel =>
      show Reads (form blank (termUpTo blank table fuel) table) text tree rest
      rw [form_eq]
      exact hroom.bind (h fuel (Nat.le_of_lt_succ hfuel))

/-! ## Terms without parts -/

theorem readable_era : Readable table .era [['*']] := by
  intro more text h
  obtain ⟨after, hroom, hafter, hlt⟩ := exists_symbol (by decide) h
  refine ⟨after, .of_alternative hroom (by decide) hlt ?_, hafter⟩
  intro fuel _
  refine reads_alternative 0 rfl (by decide) ?_
  exact .named (.bind (.char '*' after) (.pure _ after))

theorem readable_ref {name : String} (hname : IsName name) :
    Readable table (.ref name none) [('@' :: name.toList)] := by
  intro more text h
  have hopens : Opens '@' := by decide
  obtain ⟨after, hroom, hstops, hafter, hlt⟩ :=
    exists_marked hopens hname.1 hname.2 h
  refine ⟨after, .of_alternative hroom hopens hlt ?_, hafter⟩
  intro fuel _
  refine reads_alternative 6 rfl (by decide) ?_
  exact .named (.bind (.char '@' _) (.bind (reads_name hname hstops) (.pure _ after)))

/-- A name that stands alone is an atom. -/
theorem exists_readsTerm_of_atom {name : String} {tokens : List Token} (hname : IsName name)
    (hatom : atomOfName name = .ok tree) (h : Spells (name.toList :: tokens) text) :
    ∃ rest, ReadsTerm table text tree rest ∧ Spells tokens rest := by
  obtain ⟨after, hroom, hstops, hafter, hlt⟩ :=
    exists_word hname.1 hname.2 h
  obtain ⟨c, cs, hcs⟩ := List.exists_cons_of_ne_nil hname.1
  have hc : isNameChar c = true := hname.2 c (by rw [hcs]; exact List.mem_cons_self)
  have hnot : c ∉ heads := notMem_of_isNameChar hc (by decide)
  have hread : Reads atom (name.toList ++ after) tree after := by
    unfold atom
    exact (reads_name hname hstops).named.verify hatom
  rw [hcs] at hroom
  rw [hcs] at hread
  refine ⟨after, .of_alternative hroom (.inr hc) hlt ?_, hafter⟩
  intro fuel _
  exact reads_alternative 9 rfl ⟨Nat.le_refl 9, hnot⟩ hread

theorem readable_var {name : String} (hname : IsName name)
    (hdigits : ¬ ∀ c ∈ name.toList, c.isDigit = true) :
    Readable table (.var name) [name.toList] := by
  intro more text h
  refine exists_readsTerm_of_atom hname ?_ h
  unfold atomOfName
  rw [if_neg (by simpa using hdigits)]

theorem readable_u32 {value : UInt32} {digits : List Char} (hdigits : IsNumeral digits value) :
    Readable table (.u32 value) [digits] := by
  intro more text h
  have hname : IsName (String.ofList digits) := by
    unfold IsName
    rw [String.toList_ofList]
    exact ⟨hdigits.1, hdigits.isNameChar⟩
  refine exists_readsTerm_of_atom hname ?_ (by rwa [String.toList_ofList])
  unfold atomOfName
  rw [String.toList_ofList, if_pos (by simpa using hdigits.2.1), hdigits.wordOfDigits?]

/-! ## Terms with a fixed number of parts -/

theorem readable_lam {name : String} {body : Tree} {tokens : List Token} (hname : IsName name)
    (hbody : Readable table body tokens) :
    Readable table (.lam name body) (['λ'] :: name.toList :: tokens) := by
  intro more text h
  obtain ⟨t₁, hlambda, h₁, hlt₁⟩ := exists_symbol (by decide) h
  obtain ⟨t₂, hroom, hstops, h₂, hlt₂⟩ :=
    exists_word hname.1 hname.2 h₁
  obtain ⟨rest, hread, hrest⟩ := hbody more t₂ h₂
  have hshorter := hread.shorter
  refine ⟨rest, .of_alternative hlambda (by decide) (by omega) ?_, hrest⟩
  intro fuel hfuel
  refine reads_alternative 1 rfl (by decide) ?_
  refine .named (.bind (.char 'λ' t₁) (.bind hroom (.bind (reads_name hname hstops) ?_)))
  exact .bind (hread.reads fuel (by omega)) (.pure _ rest)

theorem readable_sup {label : UInt32} {digits : List Char} {left right : Tree}
    {first second : List Token} (hdigits : IsNumeral digits label)
    (hleft : Readable table left first) (hright : Readable table right second) :
    Readable table (.sup label left right)
      (('&' :: digits) :: ['{'] :: (first ++ (second ++ [['}']]))) := by
  intro more text h
  simp only [List.cons_append, List.append_assoc, List.nil_append] at h
  have hopens : Opens '&' := by decide
  obtain ⟨t₁, hlabel, hstops, h₁, hlt₁⟩ :=
    exists_marked hopens hdigits.1 hdigits.isNameChar h
  obtain ⟨t₂, hopen, h₂, hlt₂⟩ := exists_symbol (by decide) h₁
  obtain ⟨t₃, hread, h₃⟩ := hleft _ t₂ h₂
  obtain ⟨t₄, hread', h₄⟩ := hright _ t₃ h₃
  obtain ⟨rest, hclose, hrest, hlt₅⟩ := exists_symbol (by decide) h₄
  have hshorter := hread.shorter
  have hshorter' := hread'.shorter
  refine ⟨rest, .of_alternative hlabel hopens (by omega) ?_, hrest⟩
  intro fuel hfuel
  refine reads_alternative 4 rfl (by decide) ?_
  refine .named (.bind (.char '&' _) (.bind (reads_label hdigits hstops) ?_))
  refine .bind hopen (.bind (.char '{' t₂) (.bind (hread.reads fuel (by omega)) ?_))
  refine .bind (hread'.reads fuel (by omega)) (.bind hclose (.bind (.char '}' rest) ?_))
  exact .pure _ rest

theorem readable_dup {label : UInt32} {digits : List Char} {dp0 dp1 : String} {value body : Tree}
    {first second : List Token} (hdigits : IsNumeral digits label) (hdp0 : IsName dp0)
    (hdp1 : IsName dp1) (hvalue : Readable table value first) (hbody : Readable table body second) :
    Readable table (.dup label dp0 dp1 value body)
      (['!'] :: ('&' :: digits) :: ['{'] :: dp0.toList :: dp1.toList :: ['}'] :: ['='] ::
        (first ++ second)) := by
  intro more text h
  simp only [List.cons_append, List.append_assoc] at h
  have hopens : Opens '&' := by decide
  obtain ⟨t₁, hmark, h₁, hlt₁⟩ := exists_symbol (by decide) h
  obtain ⟨t₂, hlabel, hstops₂, h₂, hlt₂⟩ :=
    exists_marked hopens hdigits.1 hdigits.isNameChar h₁
  obtain ⟨t₃, hopen, h₃, hlt₃⟩ := exists_symbol (by decide) h₂
  obtain ⟨t₄, hname₀, hstops₄, h₄, hlt₄⟩ :=
    exists_word hdp0.1 hdp0.2 h₃
  obtain ⟨t₅, hname₁, hstops₅, h₅, hlt₅⟩ :=
    exists_word hdp1.1 hdp1.2 h₄
  obtain ⟨t₆, hclose, h₆, hlt₆⟩ := exists_symbol (by decide) h₅
  obtain ⟨t₇, hequals, h₇, hlt₇⟩ := exists_symbol (by decide) h₆
  obtain ⟨t₈, hread, h₈⟩ := hvalue _ t₇ h₇
  obtain ⟨rest, hread', hrest⟩ := hbody more t₈ h₈
  have hshorter := hread.shorter
  have hshorter' := hread'.shorter
  refine ⟨rest, .of_alternative hmark (by decide) (by omega) ?_, hrest⟩
  intro fuel hfuel
  refine reads_alternative 5 rfl (by decide) ?_
  refine .named (.bind (.char '!' t₁) (.bind hlabel (.bind (.char '&' _) ?_)))
  refine .bind (reads_label hdigits hstops₂) (.bind hopen (.bind (.char '{' t₃) ?_))
  refine .bind hname₀ (.bind (reads_name hdp0 hstops₄) (.bind hname₁ ?_))
  refine .bind (reads_name hdp1 hstops₅) (.bind hclose (.bind (.char '}' t₆) ?_))
  refine .bind hequals (.bind (.char '=' t₇) (.bind (hread.reads fuel (by omega)) ?_))
  exact .bind (hread'.reads fuel (by omega)) (.pure _ rest)

/-- The first of the tokens is one that a term begins with. -/
def Begins (tokens : List Token) : Prop := ∃ c cs others, tokens = (c :: cs) :: others ∧ Opens c

/-- Where a term begins, no operator goes on. -/
theorem Begins.head_ne {tokens more : List Token} (hbegins : Begins tokens)
    (h : Spells (tokens ++ more) text) : ∀ d ∈ text.head?, d ≠ '=' ∧ d ≠ '<' ∧ d ≠ '>' := by
  obtain ⟨c, cs, others, rfl, hopens⟩ := hbegins
  intro d hd
  have hblank : ∀ e ∈ ['=', '<', '>'], isBlank e = false ∧ e ≠ '/' ∧ ¬ Opens e := by decide
  have hnot : d ∉ ['=', '<', '>'] := by
    intro hmem
    obtain ⟨hroom, hslash, hclosed⟩ := hblank d hmem
    rcases head_of_spells h hd with hd | rfl | rfl
    · rw [hroom] at hd
      cases hd
    · exact hslash rfl
    · exact hclosed hopens
  simpa using hnot

theorem readable_op2 {op : Operator} {left right : Tree} {first second : List Token}
    (hbegins : Begins first) (hleft : Readable table left first)
    (hright : Readable table right second) :
    Readable table (.op2 op left right)
      (['('] :: op.symbol.toList :: (first ++ (second ++ [[')']]))) := by
  intro more text h
  simp only [List.cons_append, List.append_assoc, List.nil_append] at h
  obtain ⟨t₁, hopen, h₁, hlt₁⟩ := exists_symbol (by decide) h
  obtain ⟨t₂, hsymbol, _, h₂, hle₂⟩ := exists_reads_blank (solid_operator op) h₁
  obtain ⟨t₃, hread, h₃⟩ := hleft _ t₂ h₂
  obtain ⟨t₄, hread', h₄⟩ := hright _ t₃ h₃
  obtain ⟨rest, hclose, hrest, hlt₅⟩ := exists_symbol (by decide) h₄
  have hshorter := hread.shorter
  have hshorter' := hread'.shorter
  rw [List.length_append] at hle₂
  refine ⟨rest, .of_alternative hopen (by decide) (by omega) ?_, hrest⟩
  intro fuel hfuel
  refine reads_alternative 2 rfl (by decide) ?_
  have hop : Reads operator (op.symbol.toList ++ t₂) op t₂ := reads_operator op (hbegins.head_ne h₂)
  refine .named (.bind (.char '(' t₁) (.bind hsymbol (.bind hop ?_)))
  refine .bind (hread.reads fuel (by omega)) (.bind (hread'.reads fuel (by omega)) ?_)
  exact .bind hclose (.bind (.char ')' rest) (.pure _ rest))

end InteractionGraph.Grammar
