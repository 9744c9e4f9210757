import InteractionGraph.Proofs.Grammar.Lists

/-!
# Reading applications

An operator with its operands is tried before an application, and both are lists.  Most functions
begin with a character that no operator begins with, so the first attempt fails at once.  Three
kinds of functions need a closer look, which is why `Head` tells them apart.

* An erasure is read as the operator `*`.  The attempt goes on and fails at the end of the list:
  with one argument the second operand is missing, with three there is one too many.
* A superposition is read as the operator `&`, its label as the first operand.  The attempt fails at
  the brace.
* A duplication begins like the operator `!=`, but an equality sign does not follow.
-/

namespace InteractionGraph.Grammar

open Parse Parser Text

variable {table : ConstructorTable} {text after : List Char} {function : Tree}
  {tokens more : List Token} {arguments : List (Tree × List Token)}

/-! ## What terms begin with -/

/-- How the tokens of a term begin, as far as an operator could be read there. -/
inductive Head : Tree → List Token → Prop where
  | era : Head .era [['*']]
  | sup {tree : Tree} {label : UInt32} {digits : List Char} {others : List Token} :
    IsNumeral digits label → Head tree (('&' :: digits) :: ['{'] :: others)
  | dup {tree : Tree} {digits : List Char} {others : List Token} :
    Head tree (['!'] :: ('&' :: digits) :: others)
  | plain {tree : Tree} {c : Char} {cs : List Char} {others : List Token} :
    Opens c → c ∉ ['*', '&', '!'] → Head tree ((c :: cs) :: others)

theorem Head.begins {tree : Tree} (h : Head tree tokens) : Begins tokens := by
  cases h with
  | era => exact ⟨'*', [], [], rfl, by decide⟩
  | sup _ => exact ⟨'&', _, _, rfl, by decide⟩
  | dup => exact ⟨'!', [], _, rfl, by decide⟩
  | plain hopens _ => exact ⟨_, _, _, rfl, hopens⟩

/-- A token of letters has a plain head. -/
theorem Head.word {tree : Tree} {letters : List Char} {others : List Token} (hne : letters ≠ [])
    (hletters : ∀ c ∈ letters, isNameChar c = true) : Head tree (letters :: others) := by
  obtain ⟨c, cs, rfl⟩ := List.exists_cons_of_ne_nil hne
  have hc : isNameChar c = true := hletters c List.mem_cons_self
  exact .plain (.inr hc) (notMem_of_isNameChar hc (by decide))

theorem Derives.head {tree : Tree} (h : Derives table tree tokens) : Head tree tokens := by
  cases h with
  | era => exact .era
  | sup hdigits _ _ => exact .sup hdigits
  | dup _ _ _ _ _ => exact .dup
  | var hname _ => exact .word hname.1 hname.2
  | u32 hdigits => exact .word hdigits.1 hdigits.isNameChar
  | lam _ _ | app _ _ _ _ | ref _ | ctr _ _ | mat _ _ _ | op2 _ _ =>
    exact .plain (by decide) (by decide)

/-! ## Operators where a function is -/

/-- The symbols of operators begin with other characters than terms, but for three of them. -/
theorem refuses_operator_of_opens {c : Char} (hopens : Opens c) (hc : c ∉ ['*', '&', '!'])
    (after : List Char) : Refuses operator (c :: after) := by
  refine refuses_operator ?_
  intro op hprefix
  have hfirst : ∀ d ∈ op.symbol.toList.head?, ¬ Opens d ∨ d ∈ ['*', '&', '!'] := by
    cases op <;> decide
  rcases hfirst c (head?_symbol hprefix) with hnot | hmem
  · exact hnot hopens
  · exact hc hmem

/-- The only operator that begins with an exclamation mark goes on with an equality sign. -/
theorem refuses_operator_of_bang (h : '=' ∉ after.head?) : Refuses operator ('!' :: after) := by
  refine refuses_operator ?_
  intro op hprefix
  have hsymbol : op.symbol.toList.head? = some '!' → op.symbol.toList = ['!', '='] := by
    cases op <;> decide
  rw [hsymbol (head?_symbol hprefix), List.cons_prefix_cons] at hprefix
  obtain ⟨behind, rfl⟩ := hprefix.2
  exact h rfl

/-- The operands behind an operator, with the end of the list. -/
def operands (inner : Parser Tree) (op : Operator) : Parser Tree := do
  let left ← inner
  let right ← inner
  blank
  char ')'
  return .op2 op left right

theorem operatorApplication_eq (inner : Parser Tree) :
    operatorApplication blank inner = named .operatorApplication (do
      char '('
      blank
      let op ← operator
      operands inner op) :=
  rfl

theorem refuses_of_operator {inner : Parser Tree} (hroom : Reads blank text () after)
    (hop : Refuses operator after) :
    Refuses (operatorApplication blank inner) ('(' :: text) := by
  rw [operatorApplication_eq]
  exact .named ((Reads.char '(' text).bind_refuses (hroom.bind_refuses hop.bind))

theorem refuses_of_operands {inner : Parser Tree} {op : Operator} {middle : List Char}
    (hroom : Reads blank text () after) (hop : Reads operator after op middle)
    (hoperands : Refuses (operands inner op) middle) :
    Refuses (operatorApplication blank inner) ('(' :: text) := by
  rw [operatorApplication_eq]
  exact .named ((Reads.char '(' text).bind_refuses
    (hroom.bind_refuses (hop.bind_refuses hoperands)))

/-- Operands are read from a list of two terms only. -/
theorem refuses_operands {fuel : Nat}
    (harguments : ∀ argument ∈ arguments, Readable table argument.1 argument.2)
    (hpair : arguments.length ≠ 2)
    (h : Spells (arguments.flatMap Prod.snd ++ [')'] :: more) text) (hfuel : text.length < fuel)
    (op : Operator) : Refuses (operands (termUpTo blank table fuel) op) text := by
  have hend : ∀ {text}, Spells ([')'] :: more) text →
      Refuses (termUpTo blank table fuel) text := by
    intro text h
    obtain ⟨_, hclose, _, _⟩ := exists_symbol (by decide) h
    exact refuses_termUpTo hclose (by decide) fuel
  match arguments with
  | [] => exact (hend h).bind
  | [argument] =>
    rw [List.flatMap_singleton] at h
    obtain ⟨rest, hread, hrest⟩ := harguments argument List.mem_cons_self _ text h
    exact (hread.reads fuel hfuel).bind_refuses (hend hrest).bind
  | [_, _] => exact absurd rfl hpair
  | first :: second :: third :: others =>
    simp only [List.forall_mem_cons] at harguments
    obtain ⟨hfirst, hsecond, hthird, _⟩ := harguments
    simp only [List.flatMap_cons, List.append_assoc] at h
    obtain ⟨t₁, hread₁, h₁⟩ := hfirst _ text h
    obtain ⟨t₂, hread₂, h₂⟩ := hsecond _ t₁ h₁
    obtain ⟨t₃, hread₃, h₃⟩ := hthird _ t₂ h₂
    obtain ⟨c, after, hroom, hopens⟩ := hread₃.opens
    have hne : c ≠ ')' := hopens.ne (by decide)
    have hclose : Refuses (char ')') (c :: after) := .char (by simpa using hne)
    have hshorter := hread₁.shorter
    exact (hread₁.reads fuel hfuel).bind_refuses ((hread₂.reads fuel (by omega)).bind_refuses
      (hroom.bind_refuses hclose.bind))

/-- A function and its arguments are not read as an operator and its operands. -/
theorem refuses_operatorApplication {fuel : Nat} (hhead : Head function tokens)
    (hbegins : ∀ argument ∈ arguments, Begins argument.2)
    (harguments : ∀ argument ∈ arguments, Readable table argument.1 argument.2)
    (hne : arguments ≠ []) (hpair : ¬ (function = .era ∧ arguments.length = 2))
    (h : Spells (tokens ++ (arguments.flatMap Prod.snd ++ [')'] :: more)) text)
    (hfuel : text.length < fuel) :
    Refuses (operatorApplication blank (termUpTo blank table fuel)) ('(' :: text) := by
  cases hhead with
  | era =>
    obtain ⟨after, hroom, hafter, hlt⟩ := exists_symbol (by decide) h
    have hfirst : ∀ d ∈ after.head?, d ≠ '=' ∧ d ≠ '<' ∧ d ≠ '>' := by
      obtain ⟨argument, others, rfl⟩ := List.exists_cons_of_ne_nil hne
      rw [List.flatMap_cons, List.append_assoc] at hafter
      exact (hbegins argument List.mem_cons_self).head_ne hafter
    have hlength : arguments.length ≠ 2 := fun hlength => hpair ⟨rfl, hlength⟩
    have hop : Reads operator ('*' :: after) .mul after := reads_operator .mul hfirst
    exact refuses_of_operands hroom hop
      (refuses_operands harguments hlength hafter (by omega) .mul)
  | @sup _ _ digits _ hdigits =>
    have hopens : Opens '&' := by decide
    obtain ⟨after, hroom, hapart, hafter, hle⟩ := exists_reads_blank (hopens.solid digits) h
    have hstops : Stops isNameChar after := by
      rw [← List.singleton_append] at hapart
      exact hapart.stops hdigits.1 hdigits.isNameChar
    have hlt : (digits ++ after).length < text.length := hle
    have hfirst : ∀ d ∈ (digits ++ after).head?, d ≠ '=' ∧ d ≠ '<' ∧ d ≠ '>' := by
      obtain ⟨c, cs, rfl⟩ := List.exists_cons_of_ne_nil hdigits.1
      rintro d ⟨⟩
      have hname : isNameChar c = true := hdigits.isNameChar c List.mem_cons_self
      have hnot : c ∉ ['=', '<', '>'] := notMem_of_isNameChar hname (by decide)
      simpa using hnot
    have hop : Reads operator ('&' :: (digits ++ after)) .and (digits ++ after) :=
      reads_operator .and hfirst
    -- The label is read as an integer, and a brace is no operand.
    have hlabel : Readable table (.u32 _) [digits] := readable_u32 hdigits
    have hspells : Spells ([digits] ++ _) (digits ++ after) :=
      .cons .nil (apart_of_stops hdigits.isNameChar hstops) hafter
    obtain ⟨rest, hread, hrest⟩ := hlabel _ _ hspells
    obtain ⟨_, hbrace, _, _⟩ := exists_symbol (by decide) hrest
    have hrefuses : Refuses (termUpTo blank table fuel) rest :=
      refuses_termUpTo hbrace (by decide) fuel
    exact refuses_of_operands hroom hop
      ((hread.reads fuel (by omega)).bind_refuses hrefuses.bind)
  | dup =>
    obtain ⟨after, hroom, hafter, _⟩ := exists_symbol (by decide) h
    have hequals : '=' ∉ after.head? := by
      intro hmem
      rcases head_of_spells hafter hmem with hblank | heq | heq
      · revert hblank
        decide
      · revert heq
        decide
      · revert heq
        decide
    exact refuses_of_operator hroom (refuses_operator_of_bang hequals)
  | plain hopens hc =>
    obtain ⟨after, hroom, _, _, _⟩ := exists_reads_blank (hopens.solid _) h
    exact refuses_of_operator hroom (refuses_operator_of_opens hopens hc _)

/-! ## Applications -/

theorem readable_app (hhead : Head function tokens) (hfunction : Readable table function tokens)
    (hbegins : ∀ argument ∈ arguments, Begins argument.2)
    (harguments : ∀ argument ∈ arguments, Readable table argument.1 argument.2)
    (hne : arguments ≠ []) (hpair : ¬ (function = .era ∧ arguments.length = 2)) :
    Readable table (function.applyAll (arguments.map Prod.fst))
      (['('] :: (tokens ++ (arguments.flatMap Prod.snd ++ [[')']]))) := by
  intro more text h
  simp only [List.cons_append, List.append_assoc, List.nil_append] at h
  obtain ⟨t₁, hopen, h₁, hlt₁⟩ := exists_symbol (by decide) h
  obtain ⟨t₂, hread, h₂⟩ := hfunction _ t₁ h₁
  have hleast : 1 ≤ arguments.length := List.length_pos_iff.mpr hne
  obtain ⟨rest, hlist, hrest, hlt₃⟩ :=
    exists_closedBy (by decide) hleast harguments h₂
  have hshorter := hread.shorter
  refine ⟨rest, .of_alternative hopen (by decide) (by omega) ?_, hrest⟩
  intro fuel hfuel
  refine .choice_of_getElem? 3 rfl ?_ ?_
  · have hbefore : ∀ q ∈ (alternatives (termUpTo blank table fuel) table).take 2,
        Refuses q ('(' :: t₁) := refuses_alternatives 2 (by decide) (by decide)
    have hoperator := refuses_operatorApplication hhead hbegins harguments hne hpair h₁
      (show t₁.length < fuel by omega)
    intro q hq
    rcases List.mem_append.mp
      (show q ∈ (alternatives _ table).take 2 ++ [operatorApplication blank _] from hq) with hq | hq
    · exact hbefore q hq
    · rw [List.mem_singleton.mp hq]
      exact hoperator
  · refine .named (.bind (.char '(' t₁) (.bind (hread.reads fuel (by omega)) ?_))
    exact .bind (hlist fuel (by omega)) (.pure _ rest)

end InteractionGraph.Grammar
