import InteractionGraph.Proofs.Parse.Gives
import InteractionGraph.Proofs.Parse.Place

/-!
# Going on in a text

A parser stops where it started or farther on (`Cursor.Reaches`), and most parsers take at least one
character (`Cursor.Passes`).  What they do not take from their start on they do not look at either:
what stands before a cursor is not in it.

A rule of a grammar takes other parsers as parameters, and starts them only where it has come to.
So two rules with the same text are alike if their parameters are alike from there on.  `Alike` says
this of two replies, and where the next parser may be started; a rule that is compared with itself
is shown to go on.  For each combinator there is one lemma.

A repetition counts its rounds, and would stop when it is counted out.  This never happens if each
round takes some character: the count could as well be any greater one (`Progresses`).
-/

namespace InteractionGraph.Parse

open Text

namespace Cursor

variable {cursor middle later : Cursor}

/-- From the first cursor on, some characters are before the second, or none. -/
def Reaches (cursor later : Cursor) : Prop :=
  ∃ taken, cursor.rest = taken ++ later.rest ∧ later.offset = cursor.offset + byteLength taken

/-- From the first cursor on, at least one character is before the second. -/
structure Passes (cursor later : Cursor) : Prop where
  reaches : cursor.Reaches later
  lt : cursor.offset < later.offset

theorem Reaches.refl (cursor : Cursor) : cursor.Reaches cursor := ⟨[], rfl, rfl⟩

theorem Reaches.trans (h : cursor.Reaches middle) (h' : middle.Reaches later) :
    cursor.Reaches later := by
  obtain ⟨taken, hrest, hoffset⟩ := h
  obtain ⟨more, hmore, hoffset'⟩ := h'
  refine ⟨taken ++ more, by rw [hrest, hmore, List.append_assoc], ?_⟩
  rw [hoffset', hoffset, byteLength_append, Nat.add_assoc]

theorem Reaches.offset_le (h : cursor.Reaches later) : cursor.offset ≤ later.offset := by
  obtain ⟨taken, -, hoffset⟩ := h
  omega

theorem Passes.of_reaches (h : cursor.Passes middle) (h' : middle.Reaches later) :
    cursor.Passes later :=
  ⟨h.reaches.trans h', h.lt.trans_le h'.offset_le⟩

theorem Reaches.passes (h : cursor.Reaches middle) (h' : middle.Passes later) :
    cursor.Passes later :=
  ⟨h.trans h'.reaches, h.offset_le.trans_lt h'.lt⟩

theorem Passes.trans (h : cursor.Passes middle) (h' : middle.Passes later) : cursor.Passes later :=
  h.of_reaches h'.reaches

/-- There are fewer characters to come. -/
theorem Passes.length_lt (h : cursor.Passes later) : later.rest.length < cursor.rest.length := by
  obtain ⟨⟨taken, hrest, hoffset⟩, hlt⟩ := h
  have hne : taken ≠ [] := by
    rintro rfl
    rw [hoffset] at hlt
    exact Nat.lt_irrefl _ hlt
  have hpos := List.length_pos_iff.mpr hne
  rw [hrest, List.length_append]
  omega

theorem passes_advance {c : Char} {rest : List Char} (h : cursor.rest = c :: rest) :
    cursor.Passes (cursor.advance c rest) := by
  refine ⟨⟨[c], h, rfl⟩, ?_⟩
  exact Nat.lt_add_of_pos_right c.utf8Size_pos

/-- A cursor that is reached is known by its rest. -/
theorem Reaches.eq_of_rest {taken rest : List Char} {offset : Nat}
    (h : Reaches ⟨offset, taken ++ rest⟩ later) (hrest : later.rest = rest) :
    later = ⟨offset + byteLength taken, rest⟩ := by
  obtain ⟨offset', rest'⟩ := later
  obtain ⟨taken', htaken, hoffset⟩ := h
  subst hrest
  cases List.append_cancel_right htaken
  exact congrArg (Cursor.mk · rest') hoffset

end Cursor

namespace Parser

variable {α β : Type} {cursor start : Cursor} {post mid : Cursor → Prop} {reply other : Reply α}
  {p q p' q' : Parser α} {next next' : α → Parser β}

/-! ## Replies that are alike -/

/-- The replies are the same, and a parser that succeeds with them stops at a cursor of a kind. -/
structure Alike (post : Cursor → Prop) (reply other : Reply α) : Prop where
  same : reply = other
  gives : ∀ value behind, reply.result? = some (value, behind) → post behind

theorem Alike.imp (h : Alike mid reply other) (hpost : ∀ behind, mid behind → post behind) :
    Alike post reply other :=
  ⟨h.same, fun value behind hgives => hpost behind (h.gives value behind hgives)⟩

theorem Alike.symm (h : Alike post reply other) : Alike post other reply :=
  ⟨h.same.symm, h.same ▸ h.gives⟩

/-- A parser that stops at cursors of a kind is alike to itself. -/
theorem alike_self (h : ∀ value behind, Gives p cursor value behind → post behind) :
    Alike post (p cursor) (p cursor) :=
  ⟨rfl, h⟩

theorem alike_pure (value : α) (h : post cursor) :
    Alike post ((pure value : Parser α) cursor) ((pure value : Parser α) cursor) := by
  refine alike_self fun _ _ hgives => ?_
  rwa [(gives_pure.mp hgives).2]

theorem Alike.bind (h : Alike mid (p cursor) (q cursor))
    (hnext : ∀ value middle, mid middle →
      Alike post (next value middle) (next' value middle)) :
    Alike post ((p >>= next) cursor) ((q >>= next') cursor) := by
  cases hfirst : (p cursor).result? with
  | none =>
    rw [bind_apply_of_none hfirst, bind_apply_of_none (h.same ▸ hfirst), h.same]
    exact ⟨rfl, nofun⟩
  | some reading =>
    obtain ⟨value, middle⟩ := reading
    have hsecond := hnext value middle (h.gives value middle hfirst)
    rw [bind_apply_of_some hfirst, bind_apply_of_some (h.same ▸ hfirst), h.same, hsecond.same]
    exact ⟨rfl, hsecond.symm.gives⟩

theorem Alike.orElse (h : Alike post (p cursor) (p' cursor))
    (hother : Alike post (q cursor) (q' cursor)) :
    Alike post ((p <|> q) cursor) ((p' <|> q') cursor) := by
  constructor
  · change Parser.orElse p (fun _ => q) cursor = Parser.orElse p' (fun _ => q') cursor
    simp only [Parser.orElse, h.same, hother.same]
  · intro value behind hgives
    rcases gives_orElse.mp hgives with hfirst | ⟨-, hsecond⟩
    · exact h.gives value behind hfirst
    · exact hother.gives value behind hsecond

theorem Alike.choice {parsers parsers' : List (Parser α)}
    (h : List.Forall₂ (fun p p' => Alike post (p cursor) (p' cursor)) parsers parsers') :
    Alike post (choice parsers cursor) (choice parsers' cursor) := by
  induction h with
  | nil => exact ⟨rfl, nofun⟩
  | cons hfirst _ ih => exact hfirst.orElse ih

theorem Alike.named (h : Alike post (p cursor) (q cursor)) (what : Construct) :
    Alike post (named what p cursor) (named what q cursor) :=
  ⟨by rw [Parser.named, Parser.named, h.same], h.gives⟩

theorem alike_verify {check : α → Except Rejection β}
    (h : ∀ value behind, Gives p cursor value behind → post behind) :
    Alike post (verify p check cursor) (verify p check cursor) := by
  refine alike_self fun _ behind hgives => ?_
  obtain ⟨value, hvalue, -⟩ := gives_verify.mp hgives
  exact h value behind hvalue

/-! ## Single characters and conditions -/

theorem alike_satisfy (accepts : Char → Bool) (cursor : Cursor) :
    Alike cursor.Passes (satisfy accepts cursor) (satisfy accepts cursor) := by
  refine alike_self fun c behind hgives => ?_
  obtain ⟨offset, text⟩ := cursor
  cases text with
  | nil => cases hgives
  | cons d text =>
    simp only [Gives, satisfy] at hgives
    split at hgives
    · cases hgives
      exact Cursor.passes_advance rfl
    · cases hgives

theorem alike_char (wanted : Char) (cursor : Cursor) :
    Alike cursor.Passes (char wanted cursor) (char wanted cursor) := by
  refine alike_self fun _ behind hgives => ?_
  obtain ⟨rest, hrest, rfl⟩ := gives_char.mp hgives
  exact Cursor.passes_advance hrest

theorem alike_chars (letters : List Char) (cursor : Cursor) :
    Alike cursor.Reaches (chars letters cursor) (chars letters cursor) := by
  induction letters generalizing cursor with
  | nil => exact alike_pure () (.refl cursor)
  | cons c letters ih =>
    exact (alike_char c cursor).bind fun _ middle hmiddle =>
      (ih middle).imp fun _ => hmiddle.reaches.trans

theorem alike_chars_cons (c : Char) (letters : List Char) (cursor : Cursor) :
    Alike cursor.Passes (chars (c :: letters) cursor) (chars (c :: letters) cursor) :=
  (alike_char c cursor).bind fun _ middle hmiddle =>
    (alike_chars letters middle).imp fun _ => hmiddle.of_reaches

theorem alike_notFollowedBy (h : p cursor = q cursor) :
    Alike (· = cursor) (notFollowedBy p cursor) (notFollowedBy q cursor) := by
  refine ⟨by rw [notFollowedBy, notFollowedBy, h], fun _ _ hgives => ?_⟩
  exact (gives_notFollowedBy.mp hgives).2

/-! ## Behind a start

A rule goes on from its first character, and never returns to it.  `Onward` is about the steps of
the rule, and `AlikeBehind` about a parser that the rule takes as a parameter and starts at any of
them. -/

/-- Behind a start, two parsers are alike, and do not return to it. -/
def Onward (start : Cursor) (p q : Parser α) : Prop :=
  ∀ cursor, start.Passes cursor → Alike start.Passes (p cursor) (q cursor)

/-- Behind a start, two parsers are alike, and each time take some character. -/
def AlikeBehind (start : Cursor) (p q : Parser α) : Prop :=
  ∀ cursor, start.Passes cursor → Alike cursor.Passes (p cursor) (q cursor)

theorem AlikeBehind.onward (h : AlikeBehind start p q) : Onward start p q :=
  fun cursor hcursor => (h cursor hcursor).imp fun _ => hcursor.trans

theorem AlikeBehind.of_reaches (h : AlikeBehind start p q) (hcursor : start.Reaches cursor) :
    AlikeBehind cursor p q :=
  fun later hlater => h later (hcursor.passes hlater)

theorem onward_of_reaches (h : ∀ cursor, Alike cursor.Reaches (p cursor) (p cursor)) :
    Onward start p p :=
  fun cursor hcursor => (h cursor).imp fun _ => hcursor.of_reaches

theorem onward_of_passes (h : ∀ cursor, Alike cursor.Passes (p cursor) (p cursor)) :
    Onward start p p :=
  AlikeBehind.onward fun cursor _ => h cursor

theorem onward_pure (value : α) : Onward start (pure value : Parser α) (pure value) :=
  fun _ hcursor => alike_pure value hcursor

theorem onward_char (wanted : Char) : Onward start (char wanted) (char wanted) :=
  onward_of_passes (alike_char wanted)

theorem Onward.bind (h : Onward start p q)
    (hnext : ∀ value, Onward start (next value) (next' value)) :
    Onward start (p >>= next) (q >>= next') :=
  fun cursor hcursor => (h cursor hcursor).bind hnext

/-! ## Repetitions -/

/-- The count of a repetition does not matter if each round takes some character. -/
theorem alike_manyUpTo {fuel fuel' : Nat} (hfuel : cursor.rest.length < fuel)
    (hfuel' : cursor.rest.length < fuel')
    (hitem : ∀ later, cursor.Reaches later → Alike later.Passes (p later) (q later)) :
    Alike cursor.Reaches (manyUpTo p fuel cursor) (manyUpTo q fuel' cursor) := by
  -- Both counts go down by one with each round, and the number of characters by one or more.
  induction fuel generalizing cursor fuel' with
  | zero => exact absurd hfuel (Nat.not_lt_zero _)
  | succ fuel ih =>
    obtain ⟨fuel', rfl⟩ := Nat.exists_eq_add_one_of_ne_zero (Nat.ne_zero_of_lt hfuel')
    have hfirst := hitem cursor (.refl cursor)
    cases hresult : (p cursor).result? with
    | none =>
      simp only [manyUpTo, ← hfirst.same, hresult]
      refine ⟨rfl, ?_⟩
      rintro _ _ ⟨⟩
      exact .refl cursor
    | some reading =>
      obtain ⟨value, middle⟩ := reading
      have hpasses := hfirst.gives value middle hresult
      have hlt := hpasses.length_lt
      have hothers := ih (show middle.rest.length < fuel by omega)
        (show middle.rest.length < fuel' by omega)
        fun later hlater => hitem later (hpasses.reaches.trans hlater)
      simp only [manyUpTo, ← hfirst.same, hresult, ← hothers.same]
      refine ⟨rfl, ?_⟩
      intro values behind hvalues
      obtain ⟨⟨others, last⟩, hlast, heq⟩ := Option.map_eq_some_iff.mp hvalues
      cases heq
      exact hpasses.reaches.trans (hothers.gives others _ hlast)

theorem alike_many
    (hitem : ∀ later, cursor.Reaches later → Alike later.Passes (p later) (q later)) :
    Alike cursor.Reaches (many p cursor) (many q cursor) :=
  alike_manyUpTo (Nat.lt_succ_self _) (Nat.lt_succ_self _) hitem

theorem alike_manyAtLeast (least : Nat)
    (hitem : ∀ later, cursor.Reaches later → Alike later.Passes (p later) (q later)) :
    Alike cursor.Reaches (manyAtLeast least p cursor) (manyAtLeast least q cursor) := by
  refine (alike_many hitem).bind fun values middle hmiddle => ?_
  split
  · exact alike_pure values hmiddle
  · exact ⟨rfl, nofun⟩

theorem Runs.reaches {values : List α} {behind : Cursor}
    (hitem : ∀ later, Alike later.Passes (p later) (p later)) (h : Runs p cursor values behind) :
    cursor.Reaches behind := by
  induction h with
  | nil => exact .refl _
  | cons hfirst _ ih => exact ((hitem _).gives _ _ hfirst).reaches.trans ih

/-- A repetition that has to read something takes some character. -/
theorem passes_of_manyAtLeast {least : Nat} {values : List α} {behind : Cursor}
    (hitem : ∀ later, Alike later.Passes (p later) (p later)) (hleast : 0 < least)
    (h : Gives (manyAtLeast least p) cursor values behind) : cursor.Passes behind := by
  obtain ⟨hmany, hlength⟩ := gives_manyAtLeast.mp h
  cases hmany.runs with
  | nil => exact absurd hlength (Nat.not_le_of_lt hleast)
  | cons hfirst hothers =>
    exact ((hitem cursor).gives _ _ hfirst).of_reaches (hothers.reaches hitem)

theorem advances_of_alike (h : ∀ cursor, Alike cursor.Passes (p cursor) (p cursor)) : Advances p :=
  fun cursor _ _ hgives => ((h cursor).gives _ _ hgives).length_lt

/-- Repeating the parser comes to an end: each round takes at least one character, the repetition
stops where the parser fails, and it does so whatever the rounds are counted up to, as soon as this
is more than there are characters. -/
structure Progresses (p : Parser α) : Prop where
  passes : ∀ {cursor value behind}, Gives p cursor value behind → cursor.Passes behind
  stops : ∀ cursor, ∃ values behind, Gives (many p) cursor values behind ∧ Fails p behind
  steady : ∀ {fuel cursor}, cursor.rest.length < fuel → manyUpTo p fuel cursor = many p cursor

theorem progresses_of_alike (h : ∀ cursor, Alike cursor.Passes (p cursor) (p cursor)) :
    Progresses p where
  passes := (h _).gives _ _
  stops := by
    intro cursor
    have hnot : ¬ Fails (many p) cursor := not_fails_many
    obtain ⟨values, behind, hmany⟩ := not_fails_iff.mp hnot
    exact ⟨values, behind, hmany, hmany.fails_of_many (advances_of_alike h)⟩
  steady := fun hfuel => (alike_manyUpTo hfuel (Nat.lt_succ_self _) fun later _ => h later).same

end Parser

end InteractionGraph.Parse
