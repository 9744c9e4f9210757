import InteractionGraph.Proofs.Report.Parallel

/-!
# What room leaves

The parser of room stops where neither white space nor a comment begins.  It always succeeds, and it
always leaves something (`RoomLeft`): the names of white space and comments at the place where it
stops, or a second slash if a single one stands there.  In between it leaves one thing more that can
count, when a comment goes up to the end of the text: that is one more character.

So at a place that no mark is before, it may stand beside `quietly blank`, which is the same parser
and leaves nothing (`parallel_blank`).
-/

namespace InteractionGraph.Grammar

open Parse Parser Text

variable {α : Type} {text : List Char} {table : ConstructorTable} {place middle last : Place text}

/-- The parser without the alternatives that it leaves. -/
def quietly (p : Parser α) : Parser α := fun cursor => ⟨(p cursor).result?, none⟩

/-! ## Runs of characters -/

/-- What is listed where a character of a kind is missing. -/
def missing (place : Place text) : Expectation :=
  if place.rest = [] then .anything else .somethingElse

theorem missing_plain (place : Place text) :
    (missing place).isLayout = false ∧ missing place ≠ .character '/' := by
  rw [missing]
  split <;> exact ⟨rfl, nofun⟩

/-- The parser takes one character of a kind, and says of any other place what is missing. -/
structure TakesAt (text : List Char) (p : Parser Char) (accepts : Char → Bool)
    (missed : Place text → Expectation) : Prop where
  takes : ∀ (place : Place text) (c : Char) (rest : List Char), place.rest = c :: rest →
    accepts c = true → p place.cursor = ⟨some (c, place.next.cursor), none⟩
  misses : ∀ place : Place text, Stops accepts place.rest →
    p place.cursor = ⟨none, some ⟨place.nextSpan, .expected [missed place]⟩⟩

theorem takesAt_satisfy (accepts : Char → Bool) :
    TakesAt text (satisfy accepts) accepts missing where
  takes := by
    intro place c rest hrest hc
    rw [← place.advance_cursor hrest]
    simp [satisfy, hrest, hc]
  misses := by
    intro place hstops
    rw [← place.nextSpan_cursor, missing]
    cases hrest : place.rest with
    | nil => simp [satisfy, Cursor.nextSpan, hrest]
    | cons c rest =>
      have hc : accepts c = false := hstops c (by rw [hrest]; rfl)
      simp [satisfy, Cursor.nextSpan, hrest, hc]

theorem TakesAt.named {p : Parser Char} {accepts : Char → Bool} {missed : Place text → Expectation}
    (h : TakesAt text p accepts missed) (what : Construct) :
    TakesAt text (named what p) accepts fun _ => .construct what where
  takes := by
    intro place c rest hrest hc
    rw [named_apply, h.takes place c rest hrest hc]
    rfl
  misses := by
    intro place hstops
    exact named_of_start (h.misses place hstops) rfl

theorem takesAt_comment :
    TakesAt text (do notFollowedBy (char '\n'); anyChar) (· != '\n') missing where
  takes := by
    intro place c rest hrest hc
    have hchar : '\n' ∉ place.rest.head? := by
      rw [hrest]
      rintro ⟨⟩
      exact absurd hc (by decide)
    have hguard : notFollowedBy (char '\n') place.cursor = ⟨some ((), place.cursor), none⟩ := by
      rw [notFollowedBy, char_of_not_mem hchar]
    rw [bind_apply_of_some (by rw [hguard]), hguard, anyChar,
      (takesAt_satisfy _).takes place c rest hrest rfl]
    rfl
  misses := by
    intro place hstops
    cases hrest : place.rest with
    | nil =>
      have hguard : notFollowedBy (char '\n') place.cursor = ⟨some ((), place.cursor), none⟩ := by
        rw [notFollowedBy, char_of_not_mem (by simp [hrest])]
      rw [bind_apply_of_some (by rw [hguard]), hguard, anyChar,
        (takesAt_satisfy _).misses place (by simp [Stops, hrest])]
      rfl
    | cons c rest =>
      have hc : c = '\n' := by simpa [Stops, hrest] using hstops
      subst hc
      have hguard : notFollowedBy (char '\n') place.cursor =
          ⟨none, some ⟨place.nextSpan, .expected [.somethingElse]⟩⟩ := by
        rw [notFollowedBy, char_of_rest hrest]
        rfl
      rw [bind_apply_of_none (by rw [hguard]), hguard, missing, if_neg (by simp [hrest])]

/-- A repetition takes the longest run and says what is missing behind it. -/
theorem TakesAt.many {p : Parser Char} {accepts : Char → Bool} {missed : Place text → Expectation}
    (h : TakesAt text p accepts missed) (place : Place text) :
    ∃ letters last, IsRun accepts letters place last ∧ many p place.cursor =
      ⟨some (letters, last.cursor), some ⟨last.nextSpan, .expected [missed last]⟩⟩ := by
  suffices hfuel : ∀ (fuel : Nat) (place : Place text), place.rest.length < fuel →
      ∃ letters last, IsRun accepts letters place last ∧ manyUpTo p fuel place.cursor =
        ⟨some (letters, last.cursor), some ⟨last.nextSpan, .expected [missed last]⟩⟩ from
    hfuel _ place (Nat.lt_succ_self _)
  intro fuel
  induction fuel with
  | zero => exact fun _ hlt => absurd hlt (Nat.not_lt_zero _)
  | succ fuel ih =>
    intro place hlt
    by_cases hstops : Stops accepts place.rest
    · refine ⟨[], place, ⟨nofun, rfl, hstops⟩, ?_⟩
      simp only [manyUpTo, h.misses place hstops]
    · obtain ⟨c, hhead, hc⟩ : ∃ c ∈ place.rest.head?, accepts c = true := by
        simpa [Stops] using hstops
      obtain ⟨rest, hrest⟩ := List.head?_eq_some_iff.mp hhead
      obtain ⟨letters, last, hrun, hreply⟩ := ih place.next (by
        rw [Place.rest_next hrest]
        rw [hrest, List.length_cons] at hlt
        omega)
      refine ⟨c :: letters, last, ⟨List.forall_mem_cons.mpr ⟨hc, hrun.accepted⟩, ?_, hrun.stops⟩, ?_⟩
      · rw [hrest, List.cons_append, ← hrun.rest, Place.rest_next hrest]
      · simp only [manyUpTo, h.takes place c rest hrest hc, hreply]
        rfl

/-! ## White space and comments -/

theorem reply_of_isBlank {c : Char} {rest : List Char} (h : place.rest = c :: rest)
    (hc : isBlank c = true) :
    (whitespace <|> comment) place.cursor = ⟨some ((), place.next.cursor), none⟩ := by
  have hspace : whitespace place.cursor = ⟨some ((), place.next.cursor), none⟩ := by
    have htakes := (takesAt_satisfy isBlank).takes place c rest h hc
    rw [whitespace, named_apply, bind_apply_of_some (by rw [htakes]), htakes]
    rfl
  rw [orElse_apply_of_some (by rw [hspace]), hspace]

theorem whitespace_of_stops (h : Stops isBlank place.rest) : whitespace place.cursor =
    ⟨none, some ⟨place.nextSpan, .expected [.construct .whitespace]⟩⟩ := by
  have hmisses := (takesAt_satisfy isBlank).misses place h
  exact named_of_start (by rw [bind_apply_of_none (by rw [hmisses]), hmisses]) rfl

/-- A comment goes up to the end of its line, and one character more is missing there. -/
theorem exists_reply_of_slashes {rest : List Char} (h : place.rest = '/' :: '/' :: rest) :
    ∃ body last, IsRun (· != '\n') ('/' :: '/' :: body) place last ∧
      (whitespace <|> comment) place.cursor =
        ⟨some ((), last.cursor), some ⟨last.nextSpan, .expected [missing last]⟩⟩ := by
  have hnext : place.next.rest = '/' :: rest := Place.rest_next h
  have hslashes : chars ['/', '/'] place.cursor = ⟨some ((), place.next.next.cursor), none⟩ := by
    rw [chars, bind_apply_of_some (by rw [char_of_rest h]), char_of_rest h, chars,
      bind_apply_of_some (by rw [char_of_rest hnext]), char_of_rest hnext]
    rfl
  obtain ⟨body, last, hrun, hbody⟩ := takesAt_comment.many place.next.next
  have hall : IsRun (· != '\n') ('/' :: '/' :: body) place last := by
    refine ⟨?_, ?_, hrun.stops⟩
    · exact List.forall_mem_cons.mpr ⟨by decide, List.forall_mem_cons.mpr ⟨by decide, hrun.accepted⟩⟩
    · rw [h, List.cons_append, List.cons_append, ← hrun.rest, Place.rest_next hnext]
  have hlt := hall.offset_lt (List.cons_ne_nil _ _)
  have hcomment : comment place.cursor =
      ⟨some ((), last.cursor), some ⟨last.nextSpan, .expected [missing last]⟩⟩ := by
    refine named_of_behind ?_ hlt
    rw [bind_apply_of_some (by rw [hslashes]), hslashes, bind_apply_of_some (by rw [hbody]), hbody]
    rfl
  have hblank : Stops isBlank place.rest := by
    rw [h]
    rintro _ ⟨⟩
    decide
  have hspace := whitespace_of_stops hblank
  refine ⟨body, last, hall, ?_⟩
  rw [orElse_apply_of_none (by rw [hspace]), hspace, hcomment, some_farther_some,
    Alternative.farther_of_lt hlt]

/-- What the parser of room leaves at the place where it stops. -/
inductive RoomLeft (place : Place text) : Alternative → Prop where
  | layout {expectations : List Expectation} : expectations ≠ [] →
    (∀ expectation ∈ expectations, expectation.isLayout = true ∨
      expectation = .anything ∧ place.rest = [] ∧ EndsInComment text) →
    RoomLeft place ⟨place.nextSpan, .expected expectations⟩
  | slash {rest : List Char} : place.rest = '/' :: rest →
    RoomLeft place ⟨place.next.nextSpan, .expected [.character '/']⟩

/-- Where no room begins, its parser fails. -/
theorem exists_reply_of_fresh (h : Fresh place.rest) :
    ∃ alternative, RoomLeft place alternative ∧
      (whitespace <|> comment) place.cursor = ⟨none, some alternative⟩ := by
  have hspace := whitespace_of_stops h.1
  rw [orElse_apply_of_none (by rw [hspace]), hspace]
  by_cases hslash : '/' ∈ place.rest.head?
  · obtain ⟨rest, hrest⟩ := List.head?_eq_some_iff.mp hslash
    have hnext : '/' ∉ place.next.rest.head? := by
      rw [Place.rest_next hrest]
      intro hmem
      obtain ⟨more, rfl⟩ := List.head?_eq_some_iff.mp hmem
      exact h.2 ⟨more, hrest.symm⟩
    have hcomment : comment place.cursor =
        ⟨none, some ⟨place.next.nextSpan, .expected [.character '/']⟩⟩ := by
      refine named_of_behind ?_ (Place.offset_lt_next hrest)
      have hslashes : chars ['/', '/'] place.cursor =
          ⟨none, some ⟨place.next.nextSpan, .expected [.character '/']⟩⟩ := by
        rw [chars, bind_apply_of_some (by rw [char_of_rest hrest]), char_of_rest hrest, chars,
          bind_apply_of_none (by rw [char_of_not_mem hnext]), char_of_not_mem hnext]
        rfl
      rw [bind_apply_of_none (by rw [hslashes]), hslashes]
    refine ⟨_, .slash hrest, ?_⟩
    rw [hcomment, some_farther_some, Alternative.farther_of_lt (Place.offset_lt_next hrest)]
  · have hcomment : comment place.cursor =
        ⟨none, some ⟨place.nextSpan, .expected [.construct .comment]⟩⟩ := by
      have hslashes : chars ['/', '/'] place.cursor =
          ⟨none, some ⟨place.nextSpan, .expected [.character '/']⟩⟩ := by
        rw [chars, bind_apply_of_none (by rw [char_of_not_mem hslash]), char_of_not_mem hslash]
      exact named_of_start (by rw [bind_apply_of_none (by rw [hslashes]), hslashes]) rfl
    refine ⟨⟨place.nextSpan, .expected [.construct .whitespace, .construct .comment]⟩,
      .layout (List.cons_ne_nil _ _) ?_, ?_⟩
    · intro expectation hmem
      simp only [List.mem_cons, List.not_mem_nil, or_false] at hmem
      rcases hmem with rfl | rfl <;> exact .inl rfl
    · rw [hcomment, some_farther_some, Alternative.mk_farther_mk]
      rfl

/-! ## Room as far as it goes -/

theorem RoomLeft.start_le {alternative : Alternative} (h : RoomLeft place alternative) :
    place.offset ≤ alternative.span.start := by
  cases h with
  | layout _ _ => exact le_rfl
  | slash _ => exact place.offset_le_next

/-- At the end of a comment one more character is missing, but this counts only if nothing follows
the comment. -/
theorem RoomLeft.farther_comment {alternative : Alternative} {body : List Char}
    (h : RoomLeft last alternative)
    (hrun : IsRun (· != '\n') ('/' :: '/' :: body) place middle)
    (hlast : last = middle ∧ middle.rest = [] ∨ middle.offset < last.offset) :
    RoomLeft last
      (Alternative.farther ⟨middle.nextSpan, .expected [missing middle]⟩ alternative) := by
  rcases hlast with ⟨rfl, hend⟩ | hlt
  · have hcomment : EndsInComment text := by
      refine ⟨place.before, body, ?_, ?_⟩
      · have happend := last.append
        rw [hend, List.append_nil, hrun.before_eq] at happend
        exact happend.symm
      · intro hmem
        have hfeed := hrun.accepted _ (List.mem_cons_of_mem _ (List.mem_cons_of_mem _ hmem))
        exact absurd hfeed (by decide)
    cases h with
    | slash hrest =>
      rw [hend] at hrest
      cases hrest
    | @layout expectations _ hlayout =>
      rw [Alternative.mk_farther_mk, missing, if_pos hend]
      refine .layout (by simp [unite]) fun expectation hmem => ?_
      rcases mem_unite.mp hmem with hmem | hmem
      · exact .inr ⟨List.mem_singleton.mp hmem, hend, hcomment⟩
      · exact hlayout expectation hmem
  · rwa [Alternative.farther_of_lt (hlt.trans_le h.start_le)]

theorem not_fresh_of_isBlank {c : Char} {rest : List Char} (h : isBlank c = true) :
    ¬ Fresh (c :: rest) := by
  intro hfresh
  have hc := hfresh.1 c rfl
  rw [h] at hc
  cases hc

theorem not_mark_of_isBlank {c : Char} (h : isBlank c = true) : c ≠ '#' ∧ c ≠ '&' := by
  constructor <;>
  · rintro rfl
    exact absurd h (by decide)

/-- The parser of room stops where no room begins, and then no mark is before the place. -/
theorem exists_reply_of_room {fuel : Nat} (hfuel : place.rest.length < fuel) :
    ∃ units last alternative, place.offset ≤ last.offset ∧ Fresh last.rest ∧
      (last = place ∨ ¬ Fresh place.rest ∧ ¬ IsMarked last) ∧ RoomLeft last alternative ∧
      manyUpTo (whitespace <|> comment) fuel place.cursor =
        ⟨some (units, last.cursor), some alternative⟩ := by
  induction fuel generalizing place with
  | zero => exact absurd hfuel (Nat.not_lt_zero _)
  | succ fuel ih =>
    by_cases hfresh : Fresh place.rest
    · obtain ⟨alternative, hleft, hreply⟩ := exists_reply_of_fresh hfresh
      refine ⟨[], place, alternative, le_rfl, hfresh, .inl rfl, hleft, ?_⟩
      simp only [manyUpTo, hreply]
    · by_cases hslashes : ['/', '/'] <+: place.rest
      · obtain ⟨rest, hrest⟩ := hslashes
        obtain ⟨body, middle, hrun, hreply⟩ := exists_reply_of_slashes hrest.symm
        have hlt := hrun.offset_lt (List.cons_ne_nil _ _)
        have hshorter := Place.length_rest_lt hlt
        have hmiddle : middle.rest.length < fuel := by omega
        obtain ⟨units, last, alternative, hle, hlast, hor, hleft, hothers⟩ := ih hmiddle
        -- The line feed behind a comment is room again.
        have hend : last = middle ∧ middle.rest = [] ∨ middle.offset < last.offset := by
          rcases hle.eq_or_lt with heq | hlt
          · obtain rfl := Place.ext_of_offset heq
            refine .inl ⟨rfl, ?_⟩
            cases hcase : middle.rest with
            | nil => rfl
            | cons c more =>
              have hc : c = '\n' := by simpa [Stops, hcase] using hrun.stops
              rw [hcase, hc] at hlast
              exact absurd hlast (not_fresh_of_isBlank (by decide))
          · exact .inr hlt
        have hmarked : ¬ IsMarked last := by
          rcases hor with rfl | ⟨-, hmarked⟩
          · rcases hend with ⟨-, hnil⟩ | hlt
            · exact not_isMarked_of_stops (by simp [Stops, hnil])
            · exact absurd hlt (lt_irrefl _)
          · exact hmarked
        refine ⟨() :: units, last, _, hlt.le.trans hle, hlast, .inr ⟨hfresh, hmarked⟩,
          hleft.farther_comment hrun hend, ?_⟩
        simp only [manyUpTo, hreply, hothers]
        rfl
      · obtain ⟨c, hhead, hc⟩ : ∃ c ∈ place.rest.head?, isBlank c = true := by
          have hblank : ¬ Stops isBlank place.rest := fun hstops => hfresh ⟨hstops, hslashes⟩
          simpa [Stops] using hblank
        obtain ⟨rest, hrest⟩ := List.head?_eq_some_iff.mp hhead
        have hlt := Place.offset_lt_next hrest
        have hshorter := Place.length_rest_lt hlt
        have hnext : place.next.rest.length < fuel := by omega
        obtain ⟨units, last, alternative, hle, hlast, hor, hleft, hothers⟩ := ih hnext
        have hmarked : ¬ IsMarked last := by
          rcases hor with rfl | ⟨-, hmarked⟩
          · exact not_isMarked_of_follows (Place.follows_next hrest) (not_mark_of_isBlank hc)
          · exact hmarked
        refine ⟨() :: units, last, alternative, hlt.le.trans hle, hlast, .inr ⟨hfresh, hmarked⟩,
          hleft, ?_⟩
        simp only [manyUpTo, reply_of_isBlank hrest hc, hothers]
        rfl

/-- What room leaves does not show once what follows it has failed, but for a slash. -/
theorem RoomLeft.settled {alternative : Alternative} (h : RoomLeft place alternative)
    (hfresh : Fresh place.rest) : Settled text place.offset (some alternative) none := by
  cases h with
  | @slash rest hrest =>
    have hslashed : Slashed text ⟨place.next.nextSpan, .expected [.character '/']⟩ := by
      refine .intro (List.mem_singleton.mpr rfl) ⟨nofun, fun expectation hmem => .inr ?_⟩
      rw [List.mem_singleton.mp hmem]
      exact .slash (Place.follows_next hrest)
    have hagrees : Agrees text (some ⟨place.next.nextSpan, .expected [.character '/']⟩) none :=
      .slashed hslashed nofun
    exact hagrees.settled _
  | @layout expectations _ hlayout =>
    have hwidens : Widens place expectations [] := by
      refine ⟨nofun, fun expectation hmem => .inr ?_⟩
      rcases hlayout expectation hmem with hlayout | ⟨rfl, hend, hcomment⟩
      · exact .layout hlayout
      · exact .comment hend hcomment
    intro another other hanother hother hagrees
    rw [none_farther, some_farther_some]
    rcases hanother.eq_or_lt with heq | hlt
    · rw [Alternative.farther_of_eq heq]
      cases hagrees with
      | slashed _ hbelow => exact absurd (hbelow other rfl) (by omega)
      | both hmatches =>
        cases hmatches with
        | rejected hstart => exact .both (.rejected (heq.trans hstart))
        | @expected place' span span' _ _ hplace hplace' hwidens' _ =>
          obtain rfl : place' = place := Place.ext_of_offset (hplace.symm.trans heq.symm)
          exact .both (.expected rfl hplace' (hwidens.unite_left hwidens') (.inr ⟨rfl, .inl hfresh⟩))
    · rwa [Alternative.farther_of_lt hlt]

theorem RoomLeft.leaves {alternative : Alternative} (h : RoomLeft place alternative)
    (hmarked : ¬ IsMarked place) : Leaves table place alternative := by
  refine ⟨h.start_le, ?_, ?_⟩
  · cases h with
    | layout hne _ => exact coherent_of_expected hne hmarked
    | slash hrest =>
      exact coherent_of_expected (List.cons_ne_nil _ _)
        (not_isMarked_of_follows (Place.follows_next hrest) (by decide))
  · cases h with
    | slash hrest => exact fun _ => Place.offset_lt_next hrest
    | layout _ hlayout =>
      rintro ⟨_, ⟨⟩, hmem⟩
      rcases hlayout _ hmem with hlayout | ⟨⟨⟩, -⟩
      cases hlayout

theorem exists_reply_of_blank (place : Place text) :
    ∃ last alternative, place.offset ≤ last.offset ∧ Fresh last.rest ∧
      (last = place ∨ ¬ Fresh place.rest ∧ ¬ IsMarked last) ∧ RoomLeft last alternative ∧
      blank place.cursor = ⟨some ((), last.cursor), some alternative⟩ := by
  obtain ⟨units, last, alternative, hle, hlast, hor, hleft, hreply⟩ :=
    exists_reply_of_room (Nat.lt_succ_self place.rest.length)
  have hmany : many (whitespace <|> comment) place.cursor =
    ⟨some (units, last.cursor), some alternative⟩ := hreply
  refine ⟨last, alternative, hle, hlast, hor, hleft, ?_⟩
  rw [blank, bind_apply_of_some (by rw [hmany]), hmany]
  rfl

/-- At a place that no mark is before, room may be read with what it leaves or without. -/
theorem parallel_blank (hmarked : ¬ IsMarked place) :
    Parallel table place
      (fun last => ¬ IsMarked last ∧ Fresh last.rest ∧ (Fresh place.rest → last = place))
      (blank place.cursor) (quietly blank place.cursor) := by
  obtain ⟨last, alternative, hle, hlast, hor, hleft, hblank⟩ := exists_reply_of_blank place
  have hmarked' : ¬ IsMarked last := by
    rcases hor with rfl | ⟨-, hmarked'⟩
    · exact hmarked
    · exact hmarked'
  rw [quietly, hblank]
  refine ⟨rfl, ?_, nofun, ?_, nofun⟩
  · rintro _ ⟨⟩
    exact (hleft.leaves hmarked').of_le hle
  · rintro _ _ ⟨⟩
    refine ⟨last, rfl, hle, ⟨hmarked', hlast, fun hfresh => ?_⟩, hleft.settled hlast⟩
    exact hor.resolve_right fun hnot => hnot.1 hfresh

/-- Before a letter or a digit there is no room, and nothing but room is listed there. -/
theorem exists_reply_of_blank_letter (hletter : ¬ Stops isNameChar place.rest) :
    ∃ expectations, blank place.cursor =
      ⟨some ((), place.cursor), some ⟨place.nextSpan, .expected expectations⟩⟩ := by
  obtain ⟨last, alternative, -, -, hor, hleft, hblank⟩ := exists_reply_of_blank place
  obtain rfl := hor.resolve_right fun hnot => hnot.1 (fresh_of_not_stops hletter)
  cases hleft with
  | layout _ _ => exact ⟨_, hblank⟩
  | slash hrest =>
    refine absurd ?_ hletter
    rw [hrest]
    rintro _ ⟨⟩
    decide

end InteractionGraph.Grammar
