import InteractionGraph.Proofs.Grammar.Forms

/-!
# Reading lists

Fields, arms and arguments stand in lists that a closing character ends.  Before each item the
parser looks behind the room for this character (`closedBy`).  No item begins with it, so a list is
read to its end and not farther (`exists_closedBy`).

Of the forms with lists, constructors and matches are here.
-/

namespace InteractionGraph.Grammar

open Parse Parser Text

variable {table : ConstructorTable} {α ι : Type} {text : List Char}

/-! ## Lists up to a closing character -/

/-- The characters that end a list. -/
def closers : List Char := [')', '}']

/-- An item of a list, which is not looked for where the closing character is. -/
def guarded (close : Char) (item : Parser α) : Parser α := do
  notFollowedBy do
    blank
    char close
  item

theorem refuses_guarded {close : Char} {item : Parser α} {after : List Char}
    (h : Reads blank text () (close :: after)) : Refuses (guarded close item) text := by
  have hclose : Reads (do blank; char close) text () after := h.bind (.char close after)
  exact (Refuses.notFollowedBy hclose).bind

theorem ReadsItem.guarded {close : Char} {item : Nat → Parser α} {value : α} {rest : List Char}
    (h : ReadsItem item text value rest) (hclose : ¬ Opens close) {fuel : Nat}
    (hfuel : text.length < fuel) : Reads (guarded close (item fuel)) text value rest := by
  obtain ⟨c, after, hroom, hopens⟩ := h.opens
  have hne : c ≠ close := hopens.ne hclose
  have hrefuses : Refuses (do blank; char close) text :=
    hroom.bind_refuses (.char (by simpa using hne))
  exact (Reads.notFollowedBy hrefuses).bind (h.reads fuel hfuel)

/-- The items of a list are read one after the other, up to the closing character. -/
theorem exists_readsMany {close : Char} {item : Nat → Parser α} {value : ι → α}
    {tokens : ι → List Token} {items : List ι} {more : List Token} (hclose : close ∈ closers)
    (hitems : ∀ i ∈ items, ReadableItem item (value i) (tokens i))
    (h : Spells (items.flatMap tokens ++ [close] :: more) text) :
    ∃ middle, (∀ fuel, text.length < fuel →
        ReadsMany (guarded close (item fuel)) text (items.map value) middle) ∧
      Spells ([close] :: more) middle ∧ middle.length ≤ text.length := by
  have hall : ∀ c ∈ closers, c ∈ punctuation ∧ ¬ Opens c := by decide
  obtain ⟨hmark, hopens⟩ := hall close hclose
  induction items generalizing text with
  | nil =>
    obtain ⟨after, hroom, _, _⟩ := exists_symbol hmark h
    exact ⟨text, fun _ _ => .nil (refuses_guarded hroom), h, Nat.le_refl _⟩
  | cons i items ih =>
    obtain ⟨hi, hothers⟩ := List.forall_mem_cons.mp hitems
    rw [List.flatMap_cons, List.append_assoc] at h
    obtain ⟨between, hfirst, hbetween⟩ := hi _ text h
    obtain ⟨middle, hmany, hmiddle, hle⟩ := ih hothers hbetween
    have hshorter := hfirst.shorter
    refine ⟨middle, ?_, hmiddle, by omega⟩
    intro fuel hfuel
    have hread := hfirst.guarded hopens hfuel
    exact .cons hread hshorter (hmany fuel (by omega))

/-- A list is read up to its closing character and with it. -/
theorem exists_closedBy {close : Char} {item : Nat → Parser α} {value : ι → α}
    {tokens : ι → List Token} {items : List ι} {more : List Token} {least : Nat}
    (hclose : close ∈ closers) (hleast : least ≤ items.length)
    (hitems : ∀ i ∈ items, ReadableItem item (value i) (tokens i))
    (h : Spells (items.flatMap tokens ++ [close] :: more) text) :
    ∃ rest, (∀ fuel, text.length < fuel →
        Reads (closedBy blank close least (item fuel)) text (items.map value) rest) ∧
      Spells more rest ∧ rest.length < text.length := by
  have hall : ∀ c ∈ closers, c ∈ punctuation := by decide
  obtain ⟨middle, hmany, hmiddle, hle⟩ := exists_readsMany hclose hitems h
  obtain ⟨rest, hroom, hrest, hlt⟩ := exists_symbol (hall close hclose) hmiddle
  refine ⟨rest, ?_, hrest, by omega⟩
  intro fuel hfuel
  have hlength : least ≤ (items.map value).length := by rwa [List.length_map]
  have hread := (hmany fuel hfuel).manyAtLeast hlength
  exact hread.bind (.bind hroom (.bind (.char close rest) (.pure _ rest)))

/-! ## Constructors -/

theorem readable_ctr {id : UInt32} {letters : List Char} {fields : List (Tree × List Token)}
    (hname : NamesConstructor table letters id)
    (hfields : ∀ field ∈ fields, Readable table field.1 field.2) :
    Readable table (.ctr id (fields.map Prod.fst))
      (('#' :: letters) :: ['{'] :: (fields.flatMap Prod.snd ++ [['}']])) := by
  intro more text h
  simp only [List.cons_append, List.append_assoc, List.nil_append] at h
  have hopens : Opens '#' := by decide
  obtain ⟨t₁, hmark, _, h₁, hle₁⟩ := exists_reads_blank (hopens.solid letters) h
  have hstops : Stops isNameChar t₁ := stops_of_spells h₁ (by decide)
  obtain ⟨t₂, hopen, h₂, hlt₂⟩ := exists_symbol (by decide) h₁
  obtain ⟨rest, hlist, hrest, hlt₃⟩ :=
    exists_closedBy (by decide) (Nat.zero_le _) hfields h₂
  rw [List.length_append] at hle₁
  refine ⟨rest, .of_alternative hmark hopens (by omega) ?_, hrest⟩
  intro fuel hfuel
  refine reads_alternative 7 rfl (by decide) ?_
  refine .named (.bind (.char '#' _) (.bind (reads_constructorId hname hstops) ?_))
  refine .bind hopen (.bind (.char '{' t₂) (.bind (hlist fuel (by omega)) ?_))
  exact .pure _ rest

/-! ## Matches -/

/-- An arm of a match is an item of a list: it begins with a mark, which opens constructors too. -/
theorem readable_arm {written : WrittenArm} (hname : NamesArm table written.letters written.id)
    (hbody : Readable table written.body written.bodyTokens) :
    ReadableItem (fun fuel => arm blank (termUpTo blank table fuel) table) written.arm
      written.tokens := by
  intro more text h
  unfold WrittenArm.tokens at h
  simp only [List.cons_append] at h
  have hopens : Opens '#' := by decide
  obtain ⟨t₁, hmark, _, h₁, hle₁⟩ := exists_reads_blank (hopens.solid written.letters) h
  have hstops : Stops isNameChar t₁ := stops_of_spells h₁ (by decide)
  obtain ⟨t₂, hcolon, h₂, hlt₂⟩ := exists_symbol (by decide) h₁
  obtain ⟨rest, hread, hrest⟩ := hbody more t₂ h₂
  have hshorter := hread.shorter
  rw [List.length_append] at hle₁
  refine ⟨rest, ⟨⟨'#', _, hmark, hopens⟩, by omega, ?_⟩, hrest⟩
  intro fuel hfuel
  refine .named (.bind hmark (.bind (.char '#' _) (.bind (reads_armId hname hstops) ?_)))
  refine .bind hcolon (.bind (.char ':' t₂) (.bind (hread.reads fuel (by omega)) ?_))
  exact .pure _ rest

theorem readable_mat {scrutinee : Tree} {tokens : List Token} {arms : List WrittenArm}
    (hscrutinee : Readable table scrutinee tokens)
    (hnames : ∀ arm ∈ arms, NamesArm table arm.letters arm.id)
    (hbodies : ∀ arm ∈ arms, Readable table arm.body arm.bodyTokens) :
    Readable table (.matching scrutinee (arms.map WrittenArm.arm))
      (['~'] :: (tokens ++ ['{'] :: (arms.flatMap WrittenArm.tokens ++ [['}']]))) := by
  intro more text h
  simp only [List.cons_append, List.append_assoc, List.nil_append] at h
  obtain ⟨t₁, hmark, h₁, hlt₁⟩ := exists_symbol (by decide) h
  obtain ⟨t₂, hread, h₂⟩ := hscrutinee _ t₁ h₁
  obtain ⟨t₃, hopen, h₃, hlt₃⟩ := exists_symbol (by decide) h₂
  have harms : ∀ arm ∈ arms, ReadableItem
      (fun fuel => Grammar.arm blank (termUpTo blank table fuel) table) arm.arm arm.tokens :=
    fun arm hmem => readable_arm (hnames arm hmem) (hbodies arm hmem)
  obtain ⟨rest, hlist, hrest, hlt₄⟩ :=
    exists_closedBy (by decide) (Nat.zero_le _) harms h₃
  have hshorter := hread.shorter
  refine ⟨rest, .of_alternative hmark (by decide) (by omega) ?_, hrest⟩
  intro fuel hfuel
  refine reads_alternative 8 rfl (by decide) ?_
  refine .named (.bind (.char '~' t₁) (.bind (hread.reads fuel (by omega)) ?_))
  refine .bind hopen (.bind (.char '{' t₃) (.bind (hlist fuel (by omega)) ?_))
  exact .pure _ rest

end InteractionGraph.Grammar
