import InteractionGraph.Proofs.Report.Account

/-!
# What room adds to an alternative

The parser of room leaves alternatives of its own: the names of white space and of comments where it
stops, a second slash behind a single one, and one more character where a comment comes up to the
end of the text (`OfRoom`).  Here what a reader leaves is compared with what it would leave if room
left nothing.

Where both start at one place, the lists are the same up to what is of room (`Matches`).  The only
other case is a slash behind which a second one was looked for: there the reader with room comes
one character farther (`Slashed`).  In this way the two agree (`Agrees`), and they still do when
they are joined with others that agree (`Agrees.farther`).

A reader that has succeeded need not agree yet.  It is enough that the two agree as soon as a reader
that goes on from where it stopped has failed (`Settled`).
-/

namespace InteractionGraph.Grammar

open Parse Parser Text

variable {text : List Char} {place : Place text}

/-! ## What is of room -/

/-- The last line of the text has a comment. -/
def EndsInComment (text : List Char) : Prop :=
  ∃ before body, text = before ++ '/' :: '/' :: body ∧ '\n' ∉ body

/-- What only the parser of room expects at a place. -/
inductive OfRoom (place : Place text) : Expectation → Prop where
  | layout {expectation : Expectation} : expectation.isLayout = true → OfRoom place expectation
  | slash : place.Follows '/' → OfRoom place (.character '/')
  | comment : place.rest = [] → EndsInComment text → OfRoom place .anything

/-- The expectation is one of those of the alternative. -/
def Expects (alternative : Alternative) (expectation : Expectation) : Prop :=
  ∃ expectations, alternative.reason = .expected expectations ∧ expectation ∈ expectations

/-- The first list is the second and some that is of room. -/
structure Widens (place : Place text) (expectations others : List Expectation) : Prop where
  subset : ∀ expectation ∈ others, expectation ∈ expectations
  added : ∀ expectation ∈ expectations, expectation ∈ others ∨ OfRoom place expectation

/-- Two alternatives that start at one place and have the same reason up to what is of room. -/
inductive Matches (text : List Char) : Alternative → Alternative → Prop where
  | rejected {span span' : Span} {rejection : Rejection} :
    span.start = span'.start → Matches text ⟨span, .rejected rejection⟩ ⟨span', .rejected rejection⟩
  | expected {place : Place text} {span span' : Span} {expectations others : List Expectation} :
    span.start = place.offset → span'.start = place.offset → Widens place expectations others →
      span = span' ∨ span = place.nextSpan ∧
        (Fresh place.rest ∨ .character '/' ∈ expectations) →
      Matches text ⟨span, .expected expectations⟩ ⟨span', .expected others⟩

/-- An alternative of room alone, behind a slash. -/
inductive Slashed (text : List Char) : Alternative → Prop where
  | intro {place : Place text} {expectations : List Expectation} :
    .character '/' ∈ expectations → Widens place expectations [] →
      Slashed text ⟨place.nextSpan, .expected expectations⟩

/-- The first is what is left with room, the second what is left without. -/
inductive Agrees (text : List Char) : Option Alternative → Option Alternative → Prop where
  | none : Agrees text none none
  | both {alternative quiet : Alternative} :
    Matches text alternative quiet → Agrees text (some alternative) (some quiet)
  | slashed {alternative : Alternative} {quiet? : Option Alternative} :
    Slashed text alternative → (∀ quiet ∈ quiet?, quiet.span.start < alternative.span.start) →
      Agrees text (some alternative) quiet?

/-! ## Lists that are united -/

theorem mem_unite {first second : List Expectation} {expectation : Expectation} :
    expectation ∈ unite first second ↔ expectation ∈ first ∨ expectation ∈ second := by
  by_cases h : expectation ∈ first <;> simp [unite, h]

theorem Widens.unite {first second others others' : List Expectation}
    (h : Widens place first others) (h' : Widens place second others') :
    Widens place (unite first second) (unite others others') where
  subset := by
    intro expectation hmem
    rw [mem_unite] at hmem ⊢
    exact hmem.imp (h.subset expectation) (h'.subset expectation)
  added := by
    intro expectation hmem
    rw [mem_unite] at hmem ⊢
    rcases hmem with hmem | hmem
    · exact (h.added expectation hmem).imp_left .inl
    · exact (h'.added expectation hmem).imp_left .inr

/-- What is of room may be joined from either side. -/
theorem Widens.unite_right {first second others : List Expectation}
    (h : Widens place first others) (h' : Widens place second []) :
    Widens place (Parse.unite first second) others := by
  have hboth := h.unite h'
  have hnil : Parse.unite others [] = others := by simp [Parse.unite]
  rwa [hnil] at hboth

theorem Widens.unite_left {first second others : List Expectation}
    (h : Widens place first []) (h' : Widens place second others) :
    Widens place (Parse.unite first second) others := by
  have hboth := h.unite h'
  have hnil : Parse.unite [] others = others := by simp [Parse.unite]
  rwa [hnil] at hboth

theorem Widens.refl (place : Place text) (expectations : List Expectation) :
    Widens place expectations expectations :=
  ⟨fun _ => id, fun _ => .inl⟩

/-! ## Alternatives that are joined -/

variable {alternative another quiet other : Alternative}
  {left? right? quiet? other? : Option Alternative}

theorem some_farther_some :
    farther (some alternative) (some another) = some (alternative.farther another) := rfl

theorem Matches.start_eq (h : Matches text alternative quiet) :
    alternative.span.start = quiet.span.start := by
  cases h with
  | rejected hstart => exact hstart
  | expected hstart hstart' _ _ => exact hstart.trans hstart'.symm

theorem Matches.refl (h : ∃ place : Place text, alternative.span.start = place.offset) :
    Matches text alternative alternative := by
  obtain ⟨place, hstart⟩ := h
  obtain ⟨span, reason⟩ := alternative
  cases reason with
  | rejected rejection => exact .rejected rfl
  | expected expectations => exact .expected hstart hstart (.refl place expectations) (.inl rfl)

theorem Matches.join (h : Matches text alternative quiet) (h' : Matches text another other)
    (hstart : alternative.span.start = another.span.start) :
    Matches text ⟨alternative.span, alternative.reason.join another.reason⟩
      ⟨quiet.span, quiet.reason.join other.reason⟩ := by
  cases h with
  | rejected hspan => exact .rejected hspan
  | @expected place span span' expectations others hplace hplace' hwidens hspan =>
    cases h' with
    | rejected _ => exact .rejected (hplace.trans hplace'.symm)
    | @expected place' _ _ _ _ hanother _ hwidens' _ =>
      obtain rfl : place' = place :=
        Place.ext_of_offset (hanother.symm.trans (hstart.symm.trans hplace))
      refine .expected hplace hplace' (hwidens.unite hwidens') (hspan.imp_right ?_)
      exact And.imp_right (Or.imp_right fun hslash => mem_unite.mpr (.inl hslash))

/-- Behind a slash, what matches may be joined with what is of room alone. -/
theorem Matches.join_slashed (h : Matches text alternative quiet) (h' : Slashed text another)
    (hstart : alternative.span.start = another.span.start) :
    Matches text ⟨alternative.span, alternative.reason.join another.reason⟩ quiet := by
  cases h' with
  | @intro place' expectations' _ hwidens' =>
    cases h with
    | rejected hspan => exact .rejected hspan
    | @expected place span span' expectations others hplace hplace' hwidens hspan =>
      obtain rfl : place' = place := Place.ext_of_offset (hstart.symm.trans hplace)
      refine .expected hplace hplace' (hwidens.unite_right hwidens') (hspan.imp_right ?_)
      exact And.imp_right (Or.imp_right fun hslash => mem_unite.mpr (.inl hslash))

theorem Slashed.expects (h : Slashed text alternative) : Expects alternative (.character '/') := by
  cases h with
  | @intro _ expectations hslash _ => exact ⟨expectations, rfl, hslash⟩

theorem Slashed.join_matches (h : Slashed text alternative) (h' : Matches text another other)
    (hstart : alternative.span.start = another.span.start) :
    Matches text ⟨alternative.span, alternative.reason.join another.reason⟩ other := by
  cases h with
  | @intro place expectations hslash hwidens =>
    cases h' with
    | rejected hspan => exact .rejected (hstart.trans hspan)
    | @expected place' span span' _ _ hplace hplace' hwidens' _ =>
      obtain rfl : place' = place := Place.ext_of_offset (hplace.symm.trans hstart.symm)
      exact .expected rfl hplace' (hwidens.unite_left hwidens')
        (.inr ⟨rfl, .inr (mem_unite.mpr (.inl hslash))⟩)

theorem Slashed.join (h : Slashed text alternative) (h' : Slashed text another)
    (hstart : alternative.span.start = another.span.start) :
    Slashed text ⟨alternative.span, alternative.reason.join another.reason⟩ := by
  cases h with
  | @intro place expectations hslash hwidens =>
    cases h' with
    | @intro place' expectations' _ hwidens' =>
      obtain rfl : place' = place := Place.ext_of_offset hstart.symm
      exact .intro (mem_unite.mpr (.inl hslash)) (hwidens.unite_right hwidens')

theorem lt_of_mem_farther {bound : Nat} (h : ∀ quiet ∈ quiet?, quiet.span.start < bound)
    (h' : ∀ other ∈ other?, other.span.start < bound) :
    ∀ joined ∈ farther quiet? other?, joined.span.start < bound := by
  intro joined hjoined
  cases quiet? with
  | none => exact h' joined hjoined
  | some quiet =>
    cases other? with
    | none => exact h joined hjoined
    | some other =>
      cases hjoined
      rw [Alternative.start_farther]
      exact max_lt (h quiet rfl) (h' other rfl)

/-- What comes before an alternative does not count. -/
theorem farther_of_below (h : ∀ quiet ∈ quiet?, quiet.span.start < other.span.start) :
    farther quiet? (some other) = some other := by
  cases quiet? with
  | none => rfl
  | some quiet => rw [some_farther_some, Alternative.farther_of_lt (h quiet rfl)]

theorem farther_below (h : ∀ quiet ∈ quiet?, quiet.span.start < other.span.start) :
    farther (some other) quiet? = some other := by
  cases quiet? with
  | none => rfl
  | some quiet => rw [some_farther_some, Alternative.farther_of_gt (h quiet rfl)]

theorem Matches.farther (h : Matches text alternative quiet) (h' : Matches text another other) :
    Matches text (alternative.farther another) (quiet.farther other) := by
  have hstart := h.start_eq
  have hstart' := h'.start_eq
  rcases Nat.lt_trichotomy alternative.span.start another.span.start with hlt | heq | hgt
  · rwa [Alternative.farther_of_lt hlt, Alternative.farther_of_lt (by omega)]
  · rw [Alternative.farther_of_eq heq, Alternative.farther_of_eq (by omega)]
    exact h.join h' heq
  · rwa [Alternative.farther_of_gt hgt, Alternative.farther_of_gt (by omega)]

theorem Matches.agrees_slashed (h : Matches text alternative quiet) (h' : Slashed text another)
    (hbelow : ∀ other ∈ other?, other.span.start < another.span.start) :
    Agrees text (some (alternative.farther another)) (Parse.farther (some quiet) other?) := by
  have hstart := h.start_eq
  have hquiet : another.span.start ≤ alternative.span.start →
      Parse.farther (some quiet) other? = some quiet := by
    intro hle
    exact farther_below fun other hmem => (hbelow other hmem).trans_le (hle.trans hstart.le)
  rcases Nat.lt_trichotomy alternative.span.start another.span.start with hlt | heq | hgt
  · rw [Alternative.farther_of_lt hlt]
    refine .slashed h' (lt_of_mem_farther ?_ hbelow)
    rintro _ ⟨⟩
    omega
  · rw [Alternative.farther_of_eq heq, hquiet heq.ge]
    exact .both (h.join_slashed h' heq)
  · rw [Alternative.farther_of_gt hgt, hquiet hgt.le]
    exact .both h

theorem Slashed.agrees_matches (h : Slashed text alternative)
    (hbelow : ∀ quiet ∈ quiet?, quiet.span.start < alternative.span.start)
    (h' : Matches text another other) :
    Agrees text (some (alternative.farther another)) (Parse.farther quiet? (some other)) := by
  have hstart := h'.start_eq
  have hquiet : alternative.span.start ≤ another.span.start →
      Parse.farther quiet? (some other) = some other := by
    intro hle
    exact farther_of_below fun quiet hmem =>
      (hbelow quiet hmem).trans_le (hle.trans hstart.le)
  rcases Nat.lt_trichotomy alternative.span.start another.span.start with hlt | heq | hgt
  · rw [Alternative.farther_of_lt hlt, hquiet hlt.le]
    exact .both h'
  · rw [Alternative.farther_of_eq heq, hquiet heq.le]
    exact .both (h.join_matches h' heq)
  · rw [Alternative.farther_of_gt hgt]
    refine .slashed h (lt_of_mem_farther hbelow ?_)
    rintro _ ⟨⟩
    omega

theorem Slashed.agrees_slashed (h : Slashed text alternative)
    (hbelow : ∀ quiet ∈ quiet?, quiet.span.start < alternative.span.start)
    (h' : Slashed text another)
    (hbelow' : ∀ other ∈ other?, other.span.start < another.span.start) :
    Agrees text (some (alternative.farther another)) (Parse.farther quiet? other?) := by
  have hjoined : Slashed text (alternative.farther another) := by
    rcases Nat.lt_trichotomy alternative.span.start another.span.start with hlt | heq | hgt
    · rwa [Alternative.farther_of_lt hlt]
    · rw [Alternative.farther_of_eq heq]
      exact h.join h' heq
    · rwa [Alternative.farther_of_gt hgt]
  refine .slashed hjoined (lt_of_mem_farther ?_ ?_)
  · intro quiet hmem
    have hlt := hbelow quiet hmem
    rw [Alternative.start_farther]
    omega
  · intro other hmem
    have hlt := hbelow' other hmem
    rw [Alternative.start_farther]
    omega

/-- Alternatives that agree are joined with others that agree. -/
theorem Agrees.farther (h : Agrees text left? quiet?) (h' : Agrees text right? other?) :
    Agrees text (Parse.farther left? right?) (Parse.farther quiet? other?) := by
  cases h with
  | none => exact h'
  | both hmatches =>
    cases h' with
    | none => exact .both hmatches
    | both hmatches' => exact .both (hmatches.farther hmatches')
    | slashed hslashed hbelow => exact hmatches.agrees_slashed hslashed hbelow
  | slashed hslashed hbelow =>
    cases h' with
    | none =>
      rw [farther_none, farther_none]
      exact .slashed hslashed hbelow
    | both hmatches => exact hslashed.agrees_matches hbelow hmatches
    | slashed hslashed' hbelow' => exact hslashed.agrees_slashed hbelow hslashed' hbelow'

/-! ## Readers that go on -/

/-- A reader that stopped at the offset may have left something else than it would without room,
but this does not show once a reader that goes on from there has failed. -/
def Settled (text : List Char) (bound : Nat) (left? quiet? : Option Alternative) : Prop :=
  ∀ another other, bound ≤ another.span.start → bound ≤ other.span.start →
    Agrees text (some another) (some other) →
    Agrees text (farther left? (some another)) (farther quiet? (some other))

variable {bound : Nat}

theorem Agrees.settled (h : Agrees text left? quiet?) (bound : Nat) :
    Settled text bound left? quiet? :=
  fun _ _ _ _ => h.farther

/-- What was left before adds to an alternative, which starts no earlier then. -/
theorem exists_farther_some (left? : Option Alternative) (another : Alternative) :
    ∃ joined, farther left? (some another) = some joined ∧
      another.span.start ≤ joined.span.start := by
  cases left? with
  | none => exact ⟨another, rfl, le_rfl⟩
  | some alternative =>
    refine ⟨alternative.farther another, rfl, ?_⟩
    rw [Alternative.start_farther]
    exact le_max_right _ _

/-- Of two readers one behind the other, the second stops last. -/
theorem Settled.farther {greater : Nat} (h : Settled text bound left? quiet?)
    (h' : Settled text greater right? other?) (hle : bound ≤ greater) :
    Settled text greater (farther left? right?) (farther quiet? other?) := by
  intro another other hanother hother hagrees
  have hjoined := h' another other hanother hother hagrees
  obtain ⟨right, hright, hright'⟩ := exists_farther_some right? another
  obtain ⟨quiet, hquiet, hquiet'⟩ := exists_farther_some other? other
  rw [hright, hquiet] at hjoined
  rw [farther_assoc, farther_assoc, hright, hquiet]
  exact h right quiet (hle.trans (hanother.trans hright')) (hle.trans (hother.trans hquiet'))
    hjoined

theorem Agrees.isSome (h : Agrees text left? (some quiet)) : left?.isSome = true := by
  cases h with
  | both _ => rfl
  | slashed _ _ => rfl

end InteractionGraph.Grammar
