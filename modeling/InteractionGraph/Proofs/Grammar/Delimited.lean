import InteractionGraph.Proofs.Grammar.Phases
import InteractionGraph.Proofs.Grammar.Progress

/-!
# Terms end by themselves

A term is read up to its last token, and what follows does not change how.  This is not for want of
looking: an operator is tried before an application, a closing character before each item of a list,
and a letter more at the end of each name.  Those attempts may well look past the end of the term,
and in another text find something there.

The proof goes around them.  Tokens that were cut off one text are laid out just as well before
another, as long as the last of them does not run into it (`Scans.exists_taken`).  So they are read
there, and it could only be that less of them is taken.  But then the same argument leads back, and
less would have been taken from the first text too (`Transcribes.gives_of_gives`).
-/

namespace InteractionGraph.Grammar

open Parse Parser Text

variable {α : Type} {table : ConstructorTable} {tree : Tree} {text taken rest other : List Char}
  {token last : Token} {tokens others : List Token} {p : Parser α}
  {Written : α → List Token → Prop} {value : α} {offset : Nat}

/-! ## Tokens before another text -/

theorem Apart.append (h : Apart token text) (hne : text ≠ []) (other : List Char) :
    Apart token (text ++ other) := by
  obtain ⟨c, text, rfl⟩ := List.exists_cons_of_ne_nil hne
  exact h

theorem Scans.eq_of_nil (h : Scans [] text rest) : text = rest := by
  cases h
  rfl

/-- Tokens that are cut off a text are as well laid out before another text, if only the last of
them does not run into it. -/
theorem Scans.exists_taken (h : Scans (tokens ++ [last]) text rest) :
    ∃ taken, text = taken ++ rest ∧ taken ≠ [] ∧ taken.getLast? = last.getLast? ∧
      Apart last rest ∧
      ∀ other, Apart last other → Spells (tokens ++ [last] ++ [other]) (taken ++ other) := by
  induction tokens generalizing text with
  | nil =>
    cases h with
    | @cons gap _ _ _ _ hroom hne hlongest hafter =>
      cases hafter
      have hgap : IsGap gap := hroom.isGap_of_ne_nil (by simp [hne])
      refine ⟨gap ++ last, by rw [List.append_assoc], by simp [hne],
        List.getLast?_append_of_ne_nil gap hne, (hlongest.apart hroom.fresh).of_append, ?_⟩
      intro other hother
      rw [List.append_assoc gap]
      exact .cons hgap hother Scans.nil.spells_rest
  | cons token tokens ih =>
    cases h with
    | @cons gap after _ _ _ hroom hne hlongest hafter =>
      obtain ⟨taken, rfl, htaken, hlast, hapart, hspells⟩ := ih hafter
      have hgap : IsGap gap := hroom.isGap_of_ne_nil (by simp [hne])
      have hbetween : Apart token taken := (hlongest.apart hroom.fresh).of_append.of_append
      refine ⟨gap ++ (token ++ taken), by simp only [List.append_assoc], by simp [htaken], ?_,
        hapart, ?_⟩
      · rw [List.getLast?_append_of_ne_nil gap (by simp [htaken]),
          List.getLast?_append_of_ne_nil token htaken, hlast]
      · intro other hother
        rw [List.append_assoc gap, List.append_assoc token]
        exact .cons hgap (hbetween.append htaken other) (hspells other hother)

/-! ## Parsers of what is written -/

/-- The parser gives what is written in the text, and what is written it reads, whatever tokens
follow. -/
structure Transcribes (p : Parser α) (Written : α → List Token → Prop) : Prop where
  passes : ∀ {cursor value behind}, Gives p cursor value behind → cursor.Passes behind
  written : ∀ {cursor value behind}, Gives p cursor value behind →
    ∃ tokens, Written value tokens ∧ Scans tokens cursor.rest behind.rest
  reads : ∀ {value tokens more text}, Written value tokens → Spells (tokens ++ more) text →
    ∃ rest, Reads p text value rest ∧ Spells more rest

/-- Where the parser has given a value, it would read the same before another text, and leave at
least that text. -/
theorem Transcribes.exists_reads (h : Transcribes p Written) {cursor behind : Cursor}
    (hcursor : cursor.rest = taken ++ behind.rest) (hgives : Gives p cursor value behind) :
    ∃ tokens last, Written value (tokens ++ [last]) ∧ taken.getLast? = last.getLast? ∧
      Apart last behind.rest ∧ ∀ other, Apart last other →
        ∃ rest, Reads p (taken ++ other) value rest ∧ other.length ≤ rest.length := by
  obtain ⟨tokens, hwritten, hscans⟩ := h.written hgives
  have hlt := (h.passes hgives).length_lt
  rcases List.eq_nil_or_concat tokens with rfl | ⟨tokens, last, rfl⟩
  · rw [hscans.eq_of_nil] at hlt
    exact absurd hlt (Nat.lt_irrefl _)
  · rw [List.concat_eq_append] at hwritten hscans
    obtain ⟨taken', htaken, -, hlast, hapart, hspells⟩ := hscans.exists_taken
    obtain rfl : taken = taken' := List.append_cancel_right (hcursor.symm.trans htaken)
    refine ⟨tokens, last, hwritten, hlast, hapart, fun other hother => ?_⟩
    obtain ⟨rest, hreads, hrest⟩ := h.reads hwritten (hspells other hother)
    refine ⟨rest, hreads, ?_⟩
    cases hrest with
    | cons _ _ _ =>
      simp only [List.length_append]
      omega

/-- What follows does not change what the parser takes, if only the last token does not run into
it. -/
theorem Transcribes.gives_of_gives (h : Transcribes p Written)
    (hapart : ∀ tokens last, Written value (tokens ++ [last]) →
      taken.getLast? = last.getLast? → Apart last other)
    (hgives : Gives p ⟨offset, taken ++ rest⟩ value ⟨offset + byteLength taken, rest⟩) :
    Gives p ⟨offset, taken ++ other⟩ value ⟨offset + byteLength taken, other⟩ := by
  -- The tokens of the first text are read in the other one, and at least that text is left.
  obtain ⟨tokens, last, hwritten, hlast, -, hreads⟩ := h.exists_reads rfl hgives
  obtain ⟨left, hread, hle⟩ := hreads other (hapart tokens last hwritten hlast)
  obtain ⟨behind, hother⟩ := hread offset
  -- Before it, some of what was taken may be left too.
  obtain ⟨part, htext, -⟩ := (h.passes hother).reaches
  obtain ⟨extra, rfl⟩ : other <:+ left :=
    List.suffix_of_suffix_length_le (List.suffix_append taken other) ⟨part, htext.symm⟩ hle
  have htaken : taken = part ++ extra := by
    have hsplit : taken ++ other = (part ++ extra) ++ other := by
      rw [List.append_assoc]
      exact htext
    exact List.append_cancel_right hsplit
  by_cases hextra : extra = []
  · subst hextra
    cases (h.passes hother).reaches.eq_of_rest rfl
    exact hother
  · -- Then the tokens of the other text are read in the first, and leave as much there.
    obtain ⟨_, _, -, -, hapart', hreads'⟩ := h.exists_reads htext hother
    obtain ⟨left', hread', hle'⟩ := hreads' (extra ++ rest) (hapart'.of_append.append hextra rest)
    obtain ⟨behind', hback⟩ := hread' offset
    rw [← List.append_assoc, ← htaken] at hback
    cases (hgives.unique hback).2
    have hpos := List.length_pos_iff.mpr hextra
    rw [List.length_append] at hle'
    omega

/-! ## Terms, definitions and data blocks -/

theorem transcribes_term (table : ConstructorTable) :
    Transcribes (term table) (Derives table) where
  passes := (alike_term _).gives _ _
  written := sound_termWith
  reads := by
    intro tree tokens more text hderives hspells
    obtain ⟨rest, hreads, hrest⟩ := hderives.readable more text hspells
    exact ⟨rest, hreads.termWith, hrest⟩

theorem transcribes_definition (table : ConstructorTable) :
    Transcribes (definition table) (DerivesDefinition table) where
  passes := (alike_definition _).gives _ _
  written := exists_derives_of_gives_definition
  reads := by
    intro definition tokens more text hderives hspells
    obtain ⟨rest, hreads, -, hrest⟩ := exists_reads_definition hderives hspells
    exact ⟨rest, hreads, hrest⟩

theorem transcribes_dataBlock : Transcribes dataBlock DerivesBlock where
  passes := (alike_dataBlock _).gives _ _
  written := exists_derives_of_gives_dataBlock
  reads := by
    intro block tokens more text hderives hspells
    obtain ⟨rest, hreads, -, hrest⟩ := exists_reads_dataBlock hderives hspells
    exact ⟨rest, hreads, hrest⟩

/-! ## The last token -/

theorem ne_slash_of_letters {letters : List Char} (h : ∀ c ∈ letters, isNameChar c = true) :
    letters ≠ ['/'] := by
  rintro rfl
  exact absurd (h '/' List.mem_cons_self) (by decide)

theorem Derives.ne_nil (h : Derives table tree tokens) : tokens ≠ [] := by
  obtain ⟨c, cs, others, rfl, -⟩ := h.begins
  exact List.cons_ne_nil _ _

/-- The operator `/` is not the last token of a term. -/
theorem Derives.getLast?_ne (h : Derives table tree tokens) : tokens.getLast? ≠ some ['/'] := by
  induction h with
  | era => decide
  | @lam name body tokens _ hbody ih =>
    have hlast := List.getLast?_append_of_ne_nil [['λ'], name.toList] hbody.ne_nil
    exact fun hslash => ih (hlast.symm.trans hslash)
  | app => simp [List.getLast?_cons]
  | sup => simp [List.getLast?_cons]
  | @dup _ digits dp0 dp1 _ _ first _ _ _ _ _ hbody _ ih =>
    have hlast := List.getLast?_append_of_ne_nil (['!'] :: ('&' :: digits) :: ['{'] :: dp0.toList ::
      dp1.toList :: ['}'] :: ['='] :: first) hbody.ne_nil
    exact fun hslash => ih (hlast.symm.trans hslash)
  | ref _ => simp
  | var hname _ => simpa using ne_slash_of_letters hname.2
  | ctr => simp [List.getLast?_cons]
  | mat => simp [List.getLast?_cons]
  | op2 => simp [List.getLast?_cons]
  | u32 hdigits => simpa using ne_slash_of_letters hdigits.isNameChar

theorem DerivesDefinition.getLast?_ne {definition : String × Tree}
    (h : DerivesDefinition table definition tokens) : tokens.getLast? ≠ some ['/'] := by
  cases h with
  | @intro name tree tokens _ htree =>
    have hlast := List.getLast?_append_of_ne_nil ['@' :: name.toList, ['=']] htree.ne_nil
    exact fun hslash => htree.getLast?_ne (hlast.symm.trans hslash)

theorem DerivesBlock.getLast?_eq {block : DataBlock} (h : DerivesBlock block tokens) :
    tokens.getLast? = some ['}'] := by
  cases h <;> simp [constructorsTokens, List.getLast?_cons]

/-- A token that is not the operator `/` runs only from a letter into a letter. -/
theorem apart_of_ne_slash (hlast : taken.getLast? = last.getLast?) (hslash : last ≠ ['/'])
    (hletters : (∀ c ∈ taken.getLast?, isNameChar c = false) ∨ Stops isNameChar other) :
    Apart last other := by
  refine ⟨fun c hc d hd hname => ?_, fun heq => absurd heq hslash⟩
  rcases hletters with htaken | hother
  · rw [htaken c (hlast ▸ hc)] at hname
    cases hname
  · exact hother d hd

theorem Transcribes.gives_of_letters (h : Transcribes p Written)
    (hslash : ∀ {value tokens}, Written value tokens → tokens.getLast? ≠ some ['/'])
    (hletters : (∀ c ∈ taken.getLast?, isNameChar c = false) ∨ Stops isNameChar other)
    (hgives : Gives p ⟨offset, taken ++ rest⟩ value ⟨offset + byteLength taken, rest⟩) :
    Gives p ⟨offset, taken ++ other⟩ value ⟨offset + byteLength taken, other⟩ := by
  refine h.gives_of_gives (fun tokens last hwritten hlast => ?_) hgives
  refine apart_of_ne_slash hlast ?_ hletters
  rintro rfl
  exact hslash hwritten List.getLast?_concat

/-- Terms, definitions and data blocks end by themselves.  If one of them is all that is taken
before some text, then the same is taken before any other.  Only a name that a term ends with must
not go on in the other text. -/
theorem reading_is_delimited (table : ConstructorTable) (taken rest other : List Char)
    (offset : Nat) :
    (((∀ c ∈ taken.getLast?, isNameChar c = false) ∨ Stops isNameChar other) →
      (∀ tree,
        Gives (term table) ⟨offset, taken ++ rest⟩ tree ⟨offset + byteLength taken, rest⟩ →
        Gives (term table) ⟨offset, taken ++ other⟩ tree ⟨offset + byteLength taken, other⟩) ∧
      (∀ name tree,
        Gives (definition table) ⟨offset, taken ++ rest⟩ (name, tree)
          ⟨offset + byteLength taken, rest⟩ →
        Gives (definition table) ⟨offset, taken ++ other⟩ (name, tree)
          ⟨offset + byteLength taken, other⟩)) ∧
    (∀ block,
      Gives dataBlock ⟨offset, taken ++ rest⟩ block ⟨offset + byteLength taken, rest⟩ →
      Gives dataBlock ⟨offset, taken ++ other⟩ block ⟨offset + byteLength taken, other⟩) := by
  refine ⟨fun hletters => ⟨fun tree => ?_, fun name tree => ?_⟩, fun block => ?_⟩
  · exact (transcribes_term table).gives_of_letters Derives.getLast?_ne hletters
  · exact (transcribes_definition table).gives_of_letters DerivesDefinition.getLast?_ne hletters
  · refine transcribes_dataBlock.gives_of_gives fun tokens last hwritten hlast => ?_
    have hbrace : some last = some ['}'] := List.getLast?_concat.symm.trans hwritten.getLast?_eq
    cases hbrace
    refine apart_of_ne_slash hlast (by decide) (.inl fun c hc => ?_)
    rw [hlast] at hc
    cases hc
    decide

/-- An application that lacks an operand to be a product.  What stands behind its parenthesis does
not count as one. -/
theorem reading_is_delimited_application :
    Gives (term .empty) ⟨0, "(**)".toList ++ []⟩ (.app .era .era) ⟨0 + 4, []⟩ ∧
      Gives (term .empty) ⟨0, "(**)".toList ++ "*)".toList⟩ (.app .era .era)
        ⟨0 + 4, "*)".toList⟩ := by
  have hread : Gives (term .empty) ⟨0, "(**)".toList ++ []⟩ (.app .era .era) ⟨0 + 4, []⟩ := rfl
  exact ⟨hread, ((reading_is_delimited .empty _ [] _ 0).1 (.inl (by decide))).1 _ hread⟩

/-- A name goes on with each letter that follows it. -/
example : (term .empty).readFrom ['x'] = some (.var "x", ⟨1, []⟩) ∧
    (term .empty).readFrom ['x', 'y'] = some (.var "xy", ⟨2, []⟩) := ⟨rfl, rfl⟩

end InteractionGraph.Grammar
