import InteractionGraph.Proofs.Report.Agree

/-!
# Readers beside each other

A rule of the grammar takes the parser of room as a parameter, so it is two readers at once: the
rule with the room that texts are read with, and the rule with room that leaves nothing.  At each
place the two give the same.  Where they fail, what they leave agrees, and where they succeed, it is
settled.  Apart from this, each alternative gives account of the text, and nothing that is listed
without room is of room.

`Parallel` says all of this of the replies at one place, and what else holds of the place where both
stop.  It has one lemma for each combinator.  What is asked of the following reader may use all that
is known about where the first one started and stopped, so that progress and the character before a
place need no bookkeeping of their own.
-/

namespace InteractionGraph.Grammar

open Parse Parser Text

variable {α β : Type} {text : List Char} {table : ConstructorTable}
  {place other : Place text} {alternative another : Alternative}
  {left? right? quiet? other? : Option Alternative}

/-! ## What a reader leaves -/

/-- An alternative that a reader may leave that starts at a place. -/
structure Leaves (table : ConstructorTable) (place : Place text) (alternative : Alternative) :
    Prop where
  start_le : place.offset ≤ alternative.span.start
  coherent : Coherent table text alternative
  slash : Expects alternative (.character '/') → place.offset < alternative.span.start

/-- Nothing is listed that only the parser of room looks for. -/
def Plain (alternative : Alternative) : Prop :=
  ∀ expectation, Expects alternative expectation →
    expectation.isLayout = false ∧ expectation ≠ .character '/'

/-- What is left by readers that have both come to an end, and by the second in any case. -/
structure Ended (text : List Char) (left? quiet? : Option Alternative) : Prop where
  isSome : quiet?.isSome = true
  agrees : Agrees text left? quiet?

/-- What is listed where two alternatives are joined is listed in one that starts there. -/
theorem Expects.of_farther {expectation : Expectation}
    (h : Expects (alternative.farther another) expectation) :
    Expects alternative expectation ∧
        alternative.span.start = (alternative.farther another).span.start ∨
      Expects another expectation ∧
        another.span.start = (alternative.farther another).span.start := by
  rcases Nat.lt_trichotomy alternative.span.start another.span.start with hlt | heq | hgt
  · rw [Alternative.farther_of_lt hlt] at h ⊢
    exact .inr ⟨h, rfl⟩
  · rw [Alternative.farther_of_eq heq] at h ⊢
    obtain ⟨expectations, hreason, hmem⟩ := h
    cases hfirst : alternative.reason with
    | rejected rejection =>
      rw [hfirst] at hreason
      cases hreason
    | expected first =>
      cases hsecond : another.reason with
      | rejected rejection =>
        rw [hfirst, hsecond] at hreason
        cases hreason
      | expected second =>
        rw [hfirst, hsecond] at hreason
        obtain rfl := Reason.expected.inj hreason
        rcases mem_unite.mp hmem with hmem | hmem
        · exact .inl ⟨⟨first, hfirst, hmem⟩, rfl⟩
        · exact .inr ⟨⟨second, hsecond, hmem⟩, heq.symm⟩
  · rw [Alternative.farther_of_gt hgt] at h ⊢
    exact .inl ⟨h, rfl⟩

theorem Leaves.farther (h : Leaves table place alternative) (h' : Leaves table place another) :
    Leaves table place (alternative.farther another) where
  start_le := by
    rw [Alternative.start_farther]
    exact h.start_le.trans (le_max_left _ _)
  coherent := h.coherent.farther h'.coherent
  slash := by
    intro hexpects
    rcases hexpects.of_farther with ⟨hexpects, hstart⟩ | ⟨hexpects, hstart⟩
    · rw [← hstart]
      exact h.slash hexpects
    · rw [← hstart]
      exact h'.slash hexpects

theorem Leaves.of_le (h : Leaves table other alternative) (hle : place.offset ≤ other.offset) :
    Leaves table place alternative where
  start_le := hle.trans h.start_le
  coherent := h.coherent
  slash := fun hexpects => hle.trans_lt (h.slash hexpects)

theorem Plain.farther (h : Plain alternative) (h' : Plain another) :
    Plain (alternative.farther another) := by
  intro expectation hexpects
  rcases hexpects.of_farther with ⟨hexpects, -⟩ | ⟨hexpects, -⟩
  · exact h expectation hexpects
  · exact h' expectation hexpects

/-- What holds of two alternatives and of them joined, holds of what two readers leave. -/
theorem forall_mem_farther {P : Alternative → Prop}
    (hfarther : ∀ first second, P first → P second → P (first.farther second))
    (h : ∀ alternative ∈ left?, P alternative) (h' : ∀ alternative ∈ right?, P alternative) :
    ∀ alternative ∈ farther left? right?, P alternative := by
  intro joined hjoined
  cases left? with
  | none => exact h' joined hjoined
  | some first =>
    cases right? with
    | none => exact h joined hjoined
    | some second =>
      cases hjoined
      exact hfarther first second (h first rfl) (h' second rfl)

theorem plain_of_single {span : Span} {expectation : Expectation}
    (h : expectation.isLayout = false ∧ expectation ≠ .character '/') :
    Plain ⟨span, .expected [expectation]⟩ := by
  rintro _ ⟨_, ⟨⟩, hmem⟩
  rwa [List.mem_singleton.mp hmem]

/-- A single thing that is missing, at a place that no mark is before. -/
theorem leaves_of_single {expectation : Expectation}
    (h : expectation.isLayout = false ∧ expectation ≠ .character '/') (hmarked : ¬ IsMarked other)
    (hle : place.offset ≤ other.offset) :
    Leaves table place ⟨other.nextSpan, .expected [expectation]⟩ ∧
      Plain ⟨other.nextSpan, .expected [expectation]⟩ := by
  have hplain : Plain ⟨other.nextSpan, .expected [expectation]⟩ := plain_of_single h
  exact ⟨⟨hle, coherent_of_expected (List.cons_ne_nil _ _) hmarked,
    fun hexpects => absurd rfl (hplain _ hexpects).2⟩, hplain⟩

theorem leaves_of_rejected {rejection : Rejection} (hle : place.offset ≤ other.offset)
    (h : Rejects table place other rejection) :
    Leaves table place ⟨⟨place.offset, other.offset⟩, .rejected rejection⟩ ∧
      Plain ⟨⟨place.offset, other.offset⟩, .rejected rejection⟩ :=
  ⟨⟨le_rfl, ⟨place, other, rfl, hle, h⟩, nofun⟩, nofun⟩

theorem agrees_refl (h : ∀ alternative ∈ left?, Coherent table text alternative) :
    Agrees text left? left? := by
  cases left? with
  | none => exact .none
  | some alternative =>
    obtain ⟨first, last, hspan, -, -⟩ := (h alternative rfl).accounts
    exact .both (.refl ⟨first, by rw [hspan]⟩)

/-- Readers that go on from where two others have stopped, and come to an end. -/
theorem Settled.ended (h : Settled text place.offset left? quiet?)
    (hleaves : ∀ alternative ∈ right?, Leaves table place alternative)
    (hquiet : ∀ alternative ∈ other?, Leaves table place alternative)
    (hended : Ended text right? other?) :
    Ended text (Parse.farther left? right?) (Parse.farther quiet? other?) := by
  obtain ⟨other, rfl⟩ := Option.isSome_iff_exists.mp hended.isSome
  obtain ⟨another, rfl⟩ := Option.isSome_iff_exists.mp hended.agrees.isSome
  obtain ⟨joined, hjoined, -⟩ := exists_farther_some quiet? other
  exact ⟨by rw [hjoined]; rfl,
    h another other (hleaves _ rfl).start_le (hquiet _ rfl).start_le hended.agrees⟩

/-! ## Replies at a place -/

/-- The replies of a reader and of what it is without room, at one place. -/
structure Parallel (table : ConstructorTable) (place : Place text) (post : Place text → Prop)
    (reply quiet : Reply α) : Prop where
  same : reply.result? = quiet.result?
  leaves : ∀ alternative ∈ reply.alternative?, Leaves table place alternative
  leaves_quiet : ∀ alternative ∈ quiet.alternative?,
    Leaves table place alternative ∧ Plain alternative
  gives : ∀ value behind, reply.result? = some (value, behind) → ∃ last : Place text,
    behind = last.cursor ∧ place.offset ≤ last.offset ∧ post last ∧
      Settled text last.offset reply.alternative? quiet.alternative?
  fails : reply.result? = none → Ended text reply.alternative? quiet.alternative?

/-- A reader that starts at the first place may stop at the second: it has taken some character, and
no mark is before it. -/
structure Onward (place last : Place text) : Prop where
  lt : place.offset < last.offset
  not_isMarked : ¬ IsMarked last

theorem Onward.of_le {last : Place text} (h : Onward other last)
    (hle : place.offset ≤ other.offset) : Onward place last :=
  ⟨hle.trans_lt h.lt, h.not_isMarked⟩

variable {post mid inv : Place text → Prop} {reply quiet : Reply α}
  {p q p' q' : Parser α} {next next' : α → Parser β}

theorem Parallel.imp (h : Parallel table place mid reply quiet)
    (hpost : ∀ last, place.offset ≤ last.offset → mid last → post last) :
    Parallel table place post reply quiet where
  same := h.same
  leaves := h.leaves
  leaves_quiet := h.leaves_quiet
  gives := by
    intro value behind hvalue
    obtain ⟨last, hlast, hle, hmid, hsettled⟩ := h.gives value behind hvalue
    exact ⟨last, hlast, hle, hpost last hle hmid, hsettled⟩
  fails := h.fails

/-- A reader with no room in it. -/
theorem parallel_self
    (hleaves : ∀ alternative ∈ reply.alternative?, Leaves table place alternative ∧
      Plain alternative)
    (hgives : ∀ value behind, reply.result? = some (value, behind) → ∃ last : Place text,
      behind = last.cursor ∧ place.offset ≤ last.offset ∧ post last)
    (hfails : reply.result? = none → reply.alternative?.isSome = true) :
    Parallel table place post reply reply := by
  have hagrees := agrees_refl fun alternative hmem => (hleaves alternative hmem).1.coherent
  refine ⟨rfl, fun alternative hmem => (hleaves alternative hmem).1, hleaves, ?_, ?_⟩
  · intro value behind hvalue
    obtain ⟨last, hlast, hle, hpost⟩ := hgives value behind hvalue
    exact ⟨last, hlast, hle, hpost, hagrees.settled last.offset⟩
  · exact fun hnone => ⟨hfails hnone, hagrees⟩

theorem parallel_given {last : Place text} (value : α) (hle : place.offset ≤ last.offset)
    (hpost : post last) :
    Parallel table place post ⟨some (value, last.cursor), none⟩
      ⟨some (value, last.cursor), none⟩ := by
  refine parallel_self nofun ?_ nofun
  rintro _ _ ⟨⟩
  exact ⟨last, rfl, hle, hpost⟩

theorem parallel_refused (h : Leaves table place alternative ∧ Plain alternative) :
    Parallel table place post (⟨none, some alternative⟩ : Reply α) ⟨none, some alternative⟩ := by
  refine parallel_self ?_ nofun fun _ => rfl
  rintro _ ⟨⟩
  exact h

/-! ## Sequences -/

theorem parallel_pure (value : α) (h : post place) :
    Parallel table place post ((pure value : Parser α) place.cursor)
      ((pure value : Parser α) place.cursor) :=
  parallel_given value le_rfl h

theorem Parallel.bind (h : Parallel table place mid (p place.cursor) (q place.cursor))
    (hnext : ∀ value (last : Place text), place.offset ≤ last.offset → mid last →
      Parallel table last post (next value last.cursor) (next' value last.cursor)) :
    Parallel table place post ((p >>= next) place.cursor) ((q >>= next') place.cursor) := by
  cases hfirst : (p place.cursor).result? with
  | none =>
    rw [bind_apply_of_none hfirst, bind_apply_of_none (h.same.symm.trans hfirst)]
    exact ⟨rfl, h.leaves, h.leaves_quiet, nofun, fun _ => h.fails hfirst⟩
  | some reading =>
    obtain ⟨value, behind⟩ := reading
    obtain ⟨last, rfl, hle, hmid, hsettled⟩ := h.gives value behind hfirst
    have hsecond := hnext value last hle hmid
    rw [bind_apply_of_some hfirst, bind_apply_of_some (h.same.symm.trans hfirst)]
    refine ⟨hsecond.same, ?_, ?_, ?_, ?_⟩
    · exact forall_mem_farther (fun _ _ => Leaves.farther) h.leaves
        fun alternative hmem => (hsecond.leaves alternative hmem).of_le hle
    · exact forall_mem_farther (fun _ _ hfirst hsecond =>
        ⟨hfirst.1.farther hsecond.1, hfirst.2.farther hsecond.2⟩) h.leaves_quiet
        fun alternative hmem => (hsecond.leaves_quiet alternative hmem).imp_left (·.of_le hle)
    · intro value' behind' hvalue'
      obtain ⟨last', hlast', hle', hpost, hsettled'⟩ := hsecond.gives value' behind' hvalue'
      exact ⟨last', hlast', hle.trans hle', hpost, hsettled.farther hsettled' hle'⟩
    · exact fun hnone => hsettled.ended hsecond.leaves
        (fun alternative hmem => (hsecond.leaves_quiet alternative hmem).1) (hsecond.fails hnone)

/-! ## Choices -/

theorem orElse_apply_of_none {cursor : Cursor} (h : (p cursor).result? = none) :
    (p <|> q) cursor =
      ⟨(q cursor).result?, farther (p cursor).alternative? (q cursor).alternative?⟩ := by
  change Parser.orElse p (fun _ => q) cursor = _
  simp only [Parser.orElse, h]

theorem orElse_apply_of_some {cursor : Cursor} {reading : α × Cursor}
    (h : (p cursor).result? = some reading) : (p <|> q) cursor = p cursor := by
  change Parser.orElse p (fun _ => q) cursor = _
  simp only [Parser.orElse, h]

theorem choice_singleton (p : Parser α) : choice [p] = p := by
  funext cursor
  change (p <|> (fail : Parser α)) cursor = _
  cases h : (p cursor).result? with
  | none => rw [orElse_apply_of_none h, fail, farther_none, ← h]
  | some reading => exact orElse_apply_of_some h

theorem Parallel.orElse (h : Parallel table place post (p place.cursor) (p' place.cursor))
    (hother : Parallel table place post (q place.cursor) (q' place.cursor)) :
    Parallel table place post ((p <|> q) place.cursor) ((p' <|> q') place.cursor) := by
  cases hfirst : (p place.cursor).result? with
  | none =>
    have hended := h.fails hfirst
    rw [orElse_apply_of_none hfirst, orElse_apply_of_none (h.same.symm.trans hfirst)]
    refine ⟨hother.same, ?_, ?_, ?_, ?_⟩
    · exact forall_mem_farther (fun _ _ => Leaves.farther) h.leaves hother.leaves
    · exact forall_mem_farther (fun _ _ hfirst hsecond =>
        ⟨hfirst.1.farther hsecond.1, hfirst.2.farther hsecond.2⟩) h.leaves_quiet
        hother.leaves_quiet
    · intro value behind hvalue
      obtain ⟨last, hlast, hle, hpost, hsettled⟩ := hother.gives value behind hvalue
      exact ⟨last, hlast, hle, hpost,
        (hended.agrees.settled last.offset).farther hsettled le_rfl⟩
    · exact fun hnone => (hended.agrees.settled place.offset).ended hother.leaves
        (fun alternative hmem => (hother.leaves_quiet alternative hmem).1) (hother.fails hnone)
  | some reading =>
    rw [orElse_apply_of_some hfirst, orElse_apply_of_some (h.same.symm.trans hfirst)]
    exact h

theorem Parallel.choice {parsers parsers' : List (Parser α)}
    (h : List.Forall₂ (fun p p' => Parallel table place post (p place.cursor) (p' place.cursor))
      parsers parsers') (hne : parsers ≠ []) :
    Parallel table place post (choice parsers place.cursor) (choice parsers' place.cursor) := by
  induction h with
  | nil => exact absurd rfl hne
  | cons hfirst hothers ih =>
    cases hothers with
    | nil =>
      rw [choice_singleton, choice_singleton]
      exact hfirst
    | cons _ _ => exact hfirst.orElse (ih (List.cons_ne_nil _ _))

/-! ## Names for what is read -/

/-- The alternative with a new name for what was looked for, if it starts at the offset. -/
def rename (what : Construct) (offset : Nat) (alternative : Alternative) : Alternative :=
  if alternative.span.start = offset then
    { alternative with reason := .expected [.construct what] }
  else alternative

theorem named_apply (what : Construct) (p : Parser α) (place : Place text) :
    named what p place.cursor = ⟨(p place.cursor).result?,
      (p place.cursor).alternative?.map (rename what place.offset)⟩ := rfl

section Rename

variable {what : Construct} {offset : Nat}

theorem rename_of_eq (h : alternative.span.start = offset) :
    rename what offset alternative = ⟨alternative.span, .expected [.construct what]⟩ :=
  if_pos h

theorem rename_of_ne (h : alternative.span.start ≠ offset) :
    rename what offset alternative = alternative := if_neg h

@[simp]
theorem start_rename : (rename what offset alternative).span.start = alternative.span.start := by
  rw [rename]
  split <;> rfl

theorem named_of_start {result? : Option (α × Cursor)} {span : Span} {reason : Reason}
    (h : p place.cursor = ⟨result?, some ⟨span, reason⟩⟩) (hstart : span.start = place.offset) :
    named what p place.cursor = ⟨result?, some ⟨span, .expected [.construct what]⟩⟩ := by
  rw [named_apply, h]
  have hrenamed : rename what place.offset ⟨span, reason⟩ = ⟨span, .expected [.construct what]⟩ :=
    rename_of_eq hstart
  exact congrArg (fun renamed => (⟨result?, some renamed⟩ : Reply α)) hrenamed

theorem named_of_behind {result? : Option (α × Cursor)}
    (h : p place.cursor = ⟨result?, some alternative⟩)
    (hlt : place.offset < alternative.span.start) :
    named what p place.cursor = ⟨result?, some alternative⟩ := by
  rw [named_apply, h]
  exact congrArg (fun renamed => (⟨result?, some renamed⟩ : Reply α)) (rename_of_ne hlt.ne')

/-- An alternative at a place without a mark spans the next character, unless room is there. -/
theorem Coherent.span_of_fresh (h : Coherent table text alternative) (hmarked : ¬ IsMarked place)
    (hstart : alternative.span.start = place.offset) :
    ∃ last : Place text, alternative.span = ⟨place.offset, last.offset⟩ ∧
      place.offset ≤ last.offset ∧ (Fresh place.rest → last = place.next) := by
  obtain ⟨first, last, hspan, hle, haccounts⟩ := h.accounts
  rw [hspan] at hstart
  obtain rfl := Place.ext_of_offset hstart
  refine ⟨last, hspan, hle, ?_⟩
  cases hreason : alternative.reason with
  | expected expectations =>
    rw [hreason] at haccounts
    exact haccounts.2.2
  | rejected rejection =>
    rw [hreason] at haccounts
    cases rejection with
    | unknownConstructor name => exact absurd (.inl ⟨haccounts.1, haccounts.2.1.not_stops⟩) hmarked
    | labelTooLarge digits => exact absurd (.inr ⟨haccounts.1, haccounts.2.1.not_stops⟩) hmarked
    | integerTooLarge digits => exact fun _ => haccounts.1

theorem leaves_rename (h : Leaves table place alternative) (hmarked : ¬ IsMarked place) :
    Leaves table place (rename what place.offset alternative) := by
  by_cases hstart : alternative.span.start = place.offset
  · obtain ⟨last, hspan, hle, hnext⟩ := h.coherent.span_of_fresh hmarked hstart
    rw [rename_of_eq hstart]
    refine ⟨h.start_le, ⟨place, last, hspan, hle, List.cons_ne_nil _ _, hmarked, hnext⟩, ?_⟩
    rintro ⟨_, ⟨⟩, hmem⟩
    cases List.mem_singleton.mp hmem
  · rwa [rename_of_ne hstart]

theorem plain_rename (h : Plain alternative) (hwhat : what.isLayout = false) :
    Plain (rename what offset alternative) := by
  rw [rename]
  split
  · exact plain_of_single ⟨hwhat, nofun⟩
  · exact h

theorem agrees_rename (h : Agrees text left? quiet?)
    (hleft : ∀ alternative ∈ left?, Leaves table place alternative)
    (hquiet : ∀ alternative ∈ quiet?, Leaves table place alternative)
    (hmarked : ¬ IsMarked place) :
    Agrees text (left?.map (rename what place.offset)) (quiet?.map (rename what place.offset)) := by
  cases h with
  | none => exact .none
  | slashed hslashed hbelow =>
    have hlt : place.offset < _ := (hleft _ rfl).slash hslashed.expects
    refine .slashed (by rwa [rename_of_ne hlt.ne']) ?_
    intro renamed hrenamed
    obtain ⟨quiet, hmem, rfl⟩ := Option.map_eq_some_iff.mp hrenamed
    rw [start_rename, start_rename]
    exact hbelow quiet hmem
  | @both alternative quiet hmatches =>
    have hsame := hmatches.start_eq
    rw [Option.map_some, Option.map_some]
    by_cases hstart : alternative.span.start = place.offset
    · rw [rename_of_eq hstart, rename_of_eq (hsame.symm.trans hstart)]
      refine .both (.expected hstart (hsame.symm.trans hstart) (.refl place _) ?_)
      have hslash := (hleft _ rfl).slash
      have hcoherent := (hleft _ rfl).coherent
      have hcoherent' := (hquiet _ rfl).coherent
      cases hmatches with
      | rejected _ => exact .inl (hcoherent.span_unique hcoherent' rfl rfl hsame)
      | @expected place' _ _ expectations _ hplace _ _ hspan =>
        obtain rfl := Place.ext_of_offset (hplace.symm.trans hstart)
        refine hspan.imp_right (And.imp_right fun hor => .inl (hor.resolve_right fun hmem => ?_))
        exact absurd (hslash ⟨expectations, rfl, hmem⟩) (by rw [hplace]; exact lt_irrefl _)
    · rw [rename_of_ne hstart, rename_of_ne (hsame ▸ hstart)]
      exact .both hmatches

/-- Names do not show behind the place where what they name begins. -/
theorem map_rename_farther (h : offset < another.span.start) :
    farther (left?.map (rename what offset)) (some another) = farther left? (some another) := by
  cases left? with
  | none => rfl
  | some alternative =>
    by_cases hstart : alternative.span.start = offset
    · rw [Option.map_some, some_farther_some, some_farther_some,
        Alternative.farther_of_lt (by rw [start_rename]; omega), Alternative.farther_of_lt (by omega)]
    · rw [Option.map_some, rename_of_ne hstart]

theorem settled_rename {bound : Nat} (h : Settled text bound left? quiet?) (hlt : offset < bound) :
    Settled text bound (left?.map (rename what offset)) (quiet?.map (rename what offset)) := by
  intro another other hanother hother hagrees
  rw [map_rename_farther (hlt.trans_le hanother), map_rename_farther (hlt.trans_le hother)]
  exact h another other hanother hother hagrees

/-- A reader that takes some character, or fails, may be given a name. -/
theorem Parallel.named (h : Parallel table place post (p place.cursor) (q place.cursor))
    (hwhat : what.isLayout = false) (hmarked : ¬ IsMarked place)
    (hpost : ∀ last, post last → place.offset < last.offset) :
    Parallel table place post (named what p place.cursor) (named what q place.cursor) := by
  have hquiet := fun alternative hmem => (h.leaves_quiet alternative hmem).1
  rw [named_apply, named_apply]
  refine ⟨h.same, ?_, ?_, ?_, ?_⟩
  · intro renamed hrenamed
    obtain ⟨alternative, hmem, rfl⟩ := Option.map_eq_some_iff.mp hrenamed
    exact leaves_rename (h.leaves alternative hmem) hmarked
  · intro renamed hrenamed
    obtain ⟨alternative, hmem, rfl⟩ := Option.map_eq_some_iff.mp hrenamed
    exact ⟨leaves_rename (hquiet alternative hmem) hmarked,
      plain_rename (h.leaves_quiet alternative hmem).2 hwhat⟩
  · intro value behind hvalue
    obtain ⟨last, hlast, hle, hlast', hsettled⟩ := h.gives value behind hvalue
    exact ⟨last, hlast, hle, hlast', settled_rename hsettled (hpost last hlast')⟩
  · intro hnone
    obtain ⟨hsome, hagrees⟩ := h.fails hnone
    exact ⟨by rw [Option.isSome_map, hsome], agrees_rename hagrees h.leaves hquiet hmarked⟩

end Rename

/-! ## Repetitions -/

/-- A repetition gives something in any case, but it comes to an end like what fails. -/
theorem parallel_manyUpTo {fuel : Nat} (hplace : inv place) (hfuel : place.rest.length < fuel)
    (hitem : ∀ here : Place text, place.offset ≤ here.offset → inv here →
      Parallel table here (fun last => here.offset < last.offset ∧ inv last)
        (p here.cursor) (q here.cursor)) :
    Parallel table place inv (manyUpTo p fuel place.cursor) (manyUpTo q fuel place.cursor) ∧
      Ended text (manyUpTo p fuel place.cursor).alternative?
        (manyUpTo q fuel place.cursor).alternative? := by
  induction fuel generalizing place with
  | zero => exact absurd hfuel (Nat.not_lt_zero _)
  | succ fuel ih =>
    have hfirst := hitem place le_rfl hplace
    cases hresult : (p place.cursor).result? with
    | none =>
      have hended := hfirst.fails hresult
      simp only [manyUpTo, hresult, hfirst.same.symm.trans hresult]
      refine ⟨⟨rfl, hfirst.leaves, hfirst.leaves_quiet, ?_, fun _ => hended⟩, hended⟩
      rintro _ _ ⟨⟩
      exact ⟨place, rfl, le_rfl, hplace, hended.agrees.settled _⟩
    | some reading =>
      obtain ⟨value, behind⟩ := reading
      obtain ⟨middle, rfl, hle, ⟨hlt, hmiddle⟩, hsettled⟩ := hfirst.gives value behind hresult
      have hshorter := Place.length_rest_lt hlt
      obtain ⟨hothers, hended⟩ := ih hmiddle (by omega) fun here hhere =>
        hitem here (hle.trans hhere)
      simp only [manyUpTo, hresult, hfirst.same.symm.trans hresult]
      have hquiet := fun alternative hmem => (hothers.leaves_quiet alternative hmem).1
      refine ⟨⟨by rw [hothers.same], ?_, ?_, ?_, ?_⟩, hsettled.ended hothers.leaves hquiet hended⟩
      · exact forall_mem_farther (fun _ _ => Leaves.farther) hfirst.leaves
          fun alternative hmem => (hothers.leaves alternative hmem).of_le hle
      · exact forall_mem_farther (fun _ _ hfirst hsecond =>
          ⟨hfirst.1.farther hsecond.1, hfirst.2.farther hsecond.2⟩) hfirst.leaves_quiet
          fun alternative hmem => (hothers.leaves_quiet alternative hmem).imp_left (·.of_le hle)
      · intro values behind hvalues
        obtain ⟨⟨others, last⟩, hrest, heq⟩ := Option.map_eq_some_iff.mp hvalues
        cases heq
        obtain ⟨last, rfl, hle', hlast, hsettled'⟩ := hothers.gives others _ hrest
        exact ⟨last, rfl, hle.trans hle', hlast, hsettled.farther hsettled' hle'⟩
      · exact fun hnone => hsettled.ended hothers.leaves hquiet
          (hothers.fails (Option.map_eq_none_iff.mp hnone))

theorem parallel_many (hplace : inv place)
    (hitem : ∀ here : Place text, place.offset ≤ here.offset → inv here →
      Parallel table here (fun last => here.offset < last.offset ∧ inv last)
        (p here.cursor) (q here.cursor)) :
    Parallel table place inv (many p place.cursor) (many q place.cursor) ∧
      Ended text (many p place.cursor).alternative? (many q place.cursor).alternative? :=
  parallel_manyUpTo hplace (Nat.lt_succ_self _) hitem

theorem parallel_manyAtLeast (least : Nat) (hplace : inv place)
    (hitem : ∀ here : Place text, place.offset ≤ here.offset → inv here →
      Parallel table here (fun last => here.offset < last.offset ∧ inv last)
        (p here.cursor) (q here.cursor)) :
    Parallel table place inv (manyAtLeast least p place.cursor)
      (manyAtLeast least q place.cursor) := by
  obtain ⟨hmany, hended⟩ := parallel_many hplace hitem
  have hnever : ¬ Fails (many p) place.cursor := not_fails_many
  obtain ⟨values, behind, hvalues⟩ := not_fails_iff.mp hnever
  rw [manyAtLeast, manyAtLeast, bind_apply_of_some hvalues,
    bind_apply_of_some (hmany.same.symm.trans hvalues)]
  split
  · rw [pure_apply, farther_none, farther_none]
    refine ⟨rfl, hmany.leaves, hmany.leaves_quiet, ?_, fun _ => hended⟩
    rintro _ _ ⟨⟩
    exact hmany.gives values behind hvalues
  · rw [fail, farther_none, farther_none]
    refine ⟨rfl, hmany.leaves, hmany.leaves_quiet, ?_, fun _ => hended⟩
    rintro _ _ ⟨⟩

/-! ## Single characters and conditions -/

theorem char_of_rest {c : Char} {rest : List Char} (h : place.rest = c :: rest) :
    char c place.cursor = ⟨some ((), place.next.cursor), none⟩ := by
  rw [← place.advance_cursor h]
  simp [char, h]

theorem char_of_not_mem {wanted : Char} (h : wanted ∉ place.rest.head?) :
    char wanted place.cursor =
      ⟨none, some ⟨place.nextSpan, .expected [.character wanted]⟩⟩ := by
  rw [← place.nextSpan_cursor]
  cases hrest : place.rest with
  | nil => simp [char, Cursor.nextSpan, hrest]
  | cons c rest =>
    have hne : ¬ c = wanted := fun heq => h (by rw [hrest, heq]; rfl)
    simp [char, Cursor.nextSpan, hrest, hne]

theorem parallel_char {wanted : Char} (hslash : wanted ≠ '/') (hmarked : ¬ IsMarked place) :
    Parallel table place
      (fun last => last = place.next ∧ place.offset < last.offset ∧ last.Follows wanted)
      (char wanted place.cursor) (char wanted place.cursor) := by
  by_cases hmem : wanted ∈ place.rest.head?
  · obtain ⟨rest, hrest⟩ := List.head?_eq_some_iff.mp hmem
    rw [char_of_rest hrest]
    exact parallel_given () place.offset_le_next
      ⟨rfl, Place.offset_lt_next hrest, Place.follows_next hrest⟩
  · rw [char_of_not_mem hmem]
    exact parallel_refused (leaves_of_single
      ⟨rfl, fun heq => hslash (Expectation.character.inj heq)⟩ hmarked le_rfl)

/-- A character that is no mark. -/
theorem parallel_symbol {wanted : Char} (hwanted : wanted ≠ '#' ∧ wanted ≠ '&' ∧ wanted ≠ '/')
    (hmarked : ¬ IsMarked place) :
    Parallel table place (Onward place) (char wanted place.cursor) (char wanted place.cursor) :=
  (parallel_char hwanted.2.2 hmarked).imp fun _ _ hlast =>
    ⟨hlast.2.1, not_isMarked_of_follows hlast.2.2 ⟨hwanted.1, hwanted.2.1⟩⟩

theorem parallel_endOfInput (hmarked : ¬ IsMarked place) :
    Parallel table place (fun _ => True) (endOfInput place.cursor) (endOfInput place.cursor) := by
  have hspan := place.nextSpan_cursor
  cases hrest : place.rest with
  | nil =>
    rw [show endOfInput place.cursor = ⟨some ((), place.cursor), none⟩ by simp [endOfInput, hrest]]
    exact parallel_given () le_rfl trivial
  | cons c rest =>
    rw [show endOfInput place.cursor = ⟨none, some ⟨place.nextSpan, .expected [.endOfInput]⟩⟩ by
      rw [← hspan]
      simp [endOfInput, Cursor.nextSpan, hrest]]
    exact parallel_refused (leaves_of_single (by decide) hmarked le_rfl)

/-- To look for something is to leave nothing of it, and to list the whole if it is there. -/
theorem parallel_notFollowedBy (hmarked : ¬ IsMarked place)
    (hsame : (p place.cursor).result? = (q place.cursor).result?)
    (hgives : ∀ value behind, Gives p place.cursor value behind → ∃ last : Place text,
      behind = last.cursor ∧ place.offset ≤ last.offset ∧
        (Fresh place.rest → last = place.next)) :
    Parallel table place (· = place) (notFollowedBy p place.cursor)
      (notFollowedBy q place.cursor) := by
  have hreplies : notFollowedBy q place.cursor = notFollowedBy p place.cursor := by
    rw [notFollowedBy, notFollowedBy, hsame]
  rw [hreplies]
  cases hresult : (p place.cursor).result? with
  | none =>
    rw [notFollowedBy, hresult]
    exact parallel_given () le_rfl rfl
  | some reading =>
    obtain ⟨value, behind⟩ := reading
    obtain ⟨last, rfl, hle, hnext⟩ := hgives value behind hresult
    rw [notFollowedBy, hresult]
    have hplain : Plain ⟨⟨place.offset, last.offset⟩, .expected [.somethingElse]⟩ :=
      plain_of_single (by decide)
    exact parallel_refused ⟨⟨le_rfl, ⟨place, last, rfl, hle, List.cons_ne_nil _ _, hmarked, hnext⟩,
      fun hexpects => absurd rfl (hplain _ hexpects).2⟩, hplain⟩

end InteractionGraph.Grammar
