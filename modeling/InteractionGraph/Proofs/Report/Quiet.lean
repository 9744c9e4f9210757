import InteractionGraph.Proofs.Report.Failure

/-!
# Reports and the room in a text

Room is read nearly everywhere, and what its parser looks for is not worth a report.  A report hides
the names of white space and of comments, but its parser leaves more than these.  Here the report of
a text is compared with the one that it would have if room left nothing at all.

The two are the same unless one of two things shows (`Report.RoomShows`): behind a single slash,
where no second one follows, the slash is listed, and the failure is reported one character farther
than it is; and at the end of a text of which the last line has a comment, one more character is
listed.
-/

namespace InteractionGraph

open Parse Parser Text Grammar

variable {text : List Char} {table : ConstructorTable}

/-! ## Reading with any room -/

/-- Reads a term with the given parser of room. -/
def Tree.readWith (room : Parser Unit) (table : ConstructorTable) (text : String) :
    Except Report Tree :=
  (termTextWith room table).read text.toList

/-- The data blocks that a text begins with, for the given parser of room. -/
def BookSource.leadingBlocksWith (room : Parser Unit) (text : List Char) : List DataBlock :=
  match (many (dataBlockWith room) (.ofText text)).result? with
  | some (blocks, _) => blocks
  | none => []

/-- Reads a book with the given parser of room. -/
def BookSource.readWith (room : Parser Unit) (text : String) : Except Report BookSource :=
  let table := ConstructorTable.ofBlocks (leadingBlocksWith room text.toList)
  ((bookTextWith room table).read text.toList).map fun found => ⟨found.1, found.2, table⟩

/-- With the room of the grammar, terms are read as ever. -/
theorem Tree.readWith_blank (table : ConstructorTable) (text : String) :
    Tree.readWith blank table text = Tree.read table text := rfl

/-- With the room of the grammar, books are read as ever. -/
theorem BookSource.readWith_blank (text : String) :
    BookSource.readWith blank text = BookSource.read text :=
  (BookSource.read_eq text).symm

/-- What room leaves has no part in what the leading blocks are. -/
theorem BookSource.leadingBlocksWith_quietly (text : List Char) :
    leadingBlocksWith (quietly blank) text = leadingBlocks text := by
  have hparallel : Parallel .empty (Place.start text) (fun last => ¬ IsMarked last)
      (many dataBlock (.ofText text)) (many (dataBlockWith (quietly blank)) (.ofText text)) :=
    parallel_many_dataBlock not_isMarked_start
  rw [leadingBlocksWith, ← hparallel.same]
  rfl

/-! ## Where room shows -/

/-- How a report differs from the report of the same text without what room leaves. -/
structure Report.RoomShows (report quiet : Report) : Prop where
  eq_iff : report = quiet ↔
    "'/'" ∉ report.expected ∧ ("any" ∈ report.expected → "any" ∈ quiet.expected)
  slash : "'/'" ∈ report.expected → ∃ before after, report.text = before ++ '/' :: after ∧
    byteLength (before ++ ['/']) = report.span.start
  comment : "any" ∈ report.expected → "any" ∉ quiet.expected →
    report.span.start = byteLength report.text ∧ EndsInComment report.text

section Failure

variable {alternative quiet : Alternative} {expectations : List Expectation}

theorem Report.mem_expected_iff {text : List Char} {listed : String} :
    listed ∈ (ofAlternative text alternative).expected ↔
      ∃ expectation, Expects alternative expectation ∧ expectation.isLayout = false ∧
        expectation.text = listed := by
  obtain ⟨span, reason⟩ := alternative
  cases reason with
  | rejected rejection => simp [ofAlternative, Expects]
  | expected expectations =>
    simp only [ofAlternative, mem_listing, Expects, Reason.expected.injEq]
    constructor
    · rintro ⟨expectation, hmem, hlisted⟩
      exact ⟨expectation, ⟨expectations, rfl, hmem⟩, hlisted⟩
    · rintro ⟨expectation, ⟨_, rfl, hmem⟩, hlisted⟩
      exact ⟨expectation, hmem, hlisted⟩

theorem Report.slash_mem_expected_iff :
    "'/'" ∈ (ofAlternative text alternative).expected ↔ Expects alternative (.character '/') := by
  rw [mem_expected_iff]
  constructor
  · rintro ⟨expectation, hexpects, -, htext⟩
    rwa [Expectation.text_eq_slash_iff.mp htext] at hexpects
  · exact fun hexpects => ⟨_, hexpects, rfl, rfl⟩

theorem Report.any_mem_expected_iff :
    "any" ∈ (ofAlternative text alternative).expected ↔ Expects alternative .anything := by
  rw [mem_expected_iff]
  constructor
  · rintro ⟨expectation, hexpects, -, htext⟩
    rwa [Expectation.text_eq_any_iff.mp htext] at hexpects
  · exact fun hexpects => ⟨_, hexpects, rfl, rfl⟩

/-- Whatever is listed is listed without room as well, or is of room where the list is made. -/
theorem Grammar.Failure.expects_or (h : Failure table text alternative quiet)
    {expectation : Expectation} (hexpects : Expects alternative expectation) :
    Expects quiet expectation ∨ ∃ place : Place text,
      alternative.span.start = place.offset ∧ OfRoom place expectation := by
  obtain ⟨expectations, hreason, hmem⟩ := hexpects
  cases h.agrees with
  | slashed hslashed _ =>
    cases hslashed with
    | @intro place _ _ hwidens =>
      cases hreason
      rcases hwidens.added expectation hmem with hnil | hroom
      · cases hnil
      · exact .inr ⟨place, rfl, hroom⟩
  | both hmatches =>
    cases hmatches with
    | rejected _ => cases hreason
    | @expected place _ _ _ others hplace _ hwidens _ =>
      cases hreason
      rcases hwidens.added expectation hmem with hmem | hroom
      · exact .inl ⟨others, rfl, hmem⟩
      · exact .inr ⟨place, hplace, hroom⟩

/-- If no slash is listed, the two alternatives have one span and the same kind of reason. -/
theorem Grammar.Failure.agrees_of_not_slash (h : Failure table text alternative quiet)
    (hslash : ¬ Expects alternative (.character '/')) :
    alternative.span = quiet.span ∧
      ((∃ rejection, alternative.reason = .rejected rejection ∧
          quiet.reason = .rejected rejection) ∨
        ∃ expectations others, alternative.reason = .expected expectations ∧
          quiet.reason = .expected others ∧
          ∀ expectation ∈ others, expectation ∈ expectations) := by
  have hcoherent := h.coherent
  have hcoherent' := h.coherent_quiet
  cases h.agrees with
  | slashed hslashed _ => exact absurd hslashed.expects hslash
  | both hmatches =>
    have hstart := hmatches.start_eq
    cases hmatches with
    | rejected _ =>
      exact ⟨hcoherent.span_unique hcoherent' rfl rfl hstart, .inl ⟨_, rfl, rfl⟩⟩
    | @expected place _ span' expectations others _ hplace' hwidens hspan =>
      refine ⟨?_, .inr ⟨_, _, rfl, rfl, hwidens.subset⟩⟩
      rcases hspan with hspan | ⟨hspan, hfresh | hmem⟩
      · exact hspan
      · obtain ⟨first, last, hquiet, -, haccounts⟩ := hcoherent'.accounts
        obtain rfl : span' = _ := hquiet
        obtain rfl : first = place := Place.ext_of_offset hplace'
        rw [hspan, haccounts.2.2 hfresh]
        rfl
      · exact absurd ⟨expectations, rfl, hmem⟩ hslash

/-- Reports are the same where no slash is listed, and no character that only a comment misses. -/
theorem Grammar.Failure.ofAlternative_eq (h : Failure table text alternative quiet)
    (hslash : ¬ Expects alternative (.character '/'))
    (hany : Expects alternative .anything → Expects quiet .anything) :
    Report.ofAlternative text alternative = Report.ofAlternative text quiet := by
  obtain ⟨hspan, ⟨rejection, hreason, hreason'⟩ | ⟨expectations, others, hreason, hreason', hsubset⟩⟩ :=
    h.agrees_of_not_slash hslash
  · have hsame : alternative = quiet := by
      obtain ⟨span, reason⟩ := alternative
      obtain ⟨span', reason'⟩ := quiet
      rw [Alternative.mk.injEq]
      exact ⟨hspan, hreason.trans hreason'.symm⟩
    rw [hsame]
  · have hlisting : Report.listing expectations = Report.listing others := by
      rw [Report.listing_eq_iff]
      intro listed
      rw [Report.mem_listing, Report.mem_listing]
      constructor
      · rintro ⟨expectation, hmem, hlayout, htext⟩
        have hquiet : Expects quiet expectation := by
          rcases h.expects_or ⟨expectations, hreason, hmem⟩ with hquiet | ⟨place, -, hroom⟩
          · exact hquiet
          · cases hroom with
            | layout hroom =>
              rw [hroom] at hlayout
              cases hlayout
            | slash _ => exact absurd ⟨expectations, hreason, hmem⟩ hslash
            | comment _ _ => exact hany ⟨expectations, hreason, hmem⟩
        obtain ⟨_, heq, hmem'⟩ := hquiet
        rw [hreason'] at heq
        cases heq
        exact ⟨expectation, hmem', hlayout, htext⟩
      · rintro ⟨expectation, hmem, hlisted⟩
        exact ⟨expectation, hsubset expectation hmem, hlisted⟩
    rw [Report.ofAlternative, Report.ofAlternative, hreason, hreason', hspan]
    exact congrArg (Report.mk text quiet.span .unexpected · _) hlisting

theorem Grammar.Failure.roomShows (h : Failure table text alternative quiet) :
    (Report.ofAlternative text alternative).RoomShows (Report.ofAlternative text quiet) where
  eq_iff := by
    have hplain : ¬ Expects quiet (.character '/') := fun hexpects => (h.plain _ hexpects).2 rfl
    constructor
    · intro heq
      rw [heq]
      exact ⟨fun hmem => hplain (Report.slash_mem_expected_iff.mp hmem), id⟩
    · rintro ⟨hslash, hany⟩
      rw [Report.slash_mem_expected_iff] at hslash
      rw [Report.any_mem_expected_iff, Report.any_mem_expected_iff] at hany
      exact h.ofAlternative_eq hslash hany
  slash := by
    intro hmem
    rw [Report.text_ofAlternative, Report.span_ofAlternative]
    rcases h.expects_or (Report.slash_mem_expected_iff.mp hmem) with hquiet | ⟨place, hplace, hroom⟩
    · exact absurd rfl (h.plain _ hquiet).2
    · cases hroom with
      | layout hlayout => cases hlayout
      | slash hfollows =>
        obtain ⟨before, hbefore⟩ := List.getLast?_eq_some_iff.mp hfollows
        refine ⟨before, place.rest, ?_, ?_⟩
        · have happend := place.append
          rw [hbefore, List.append_assoc] at happend
          exact happend.symm
        · rw [hplace, Place.offset, hbefore]
  comment := by
    intro hmem hquiet
    rw [Report.text_ofAlternative, Report.span_ofAlternative]
    rw [Report.any_mem_expected_iff] at hquiet
    rcases h.expects_or (Report.any_mem_expected_iff.mp hmem) with hquiet' | ⟨place, hplace, hroom⟩
    · exact absurd hquiet' hquiet
    · cases hroom with
      | layout hlayout => cases hlayout
      | comment hend hcomment =>
        rw [hplace]
        exact ⟨Place.offset_eq_byteLength_iff.mpr hend, hcomment⟩

end Failure

/-! ## Whole texts -/

/-- What is read is the same, and a failure is reported alike as far as no room shows. -/
structure ReadsAlike {α : Type} (read quiet : Except Report α) : Prop where
  ok_iff : ∀ value, read = .ok value ↔ quiet = .ok value
  error : ∀ report, read = .error report → ∃ other, quiet = .error other ∧ report.RoomShows other

theorem Grammar.Parallel.readsAlike {α : Type} {p q : Parser α} {post : Place text → Prop}
    (h : Parallel table (Place.start text) post (p (.ofText text)) (q (.ofText text))) :
    ReadsAlike (p.read text) (q.read text) where
  ok_iff := by
    intro value
    rw [Parser.read, Parser.read, ← h.same]
    cases (p (.ofText text)).result? <;> simp
  error := by
    intro report hread
    obtain ⟨hfails, rfl⟩ := read_eq_error_iff.mp hread
    obtain ⟨alternative, quiet, hleft, hquiet, hfailure⟩ := h.failure hfails
    refine ⟨_, read_eq_error_iff.mpr ⟨h.same.symm.trans hfails, rfl⟩, ?_⟩
    rw [hleft, hquiet]
    exact hfailure.roomShows

theorem ReadsAlike.map {α β : Type} {read quiet : Except Report α} (h : ReadsAlike read quiet)
    (f : α → β) : ReadsAlike (read.map f) (quiet.map f) := by
  cases read with
  | ok value =>
    rw [(h.ok_iff value).mp rfl]
    exact ⟨fun _ => .rfl, nofun⟩
  | error report =>
    obtain ⟨other, rfl, hshows⟩ := h.error report rfl
    refine ⟨fun _ => iff_of_false nofun nofun, ?_⟩
    rintro _ ⟨⟩
    exact ⟨other, rfl, hshows⟩

/-- A text is read with what room leaves as it is read without, and if it cannot be read, one knows
from its report where room shows. -/
theorem readsAlike_quietly (table : ConstructorTable) (text : String) :
    ReadsAlike (Tree.read table text) (Tree.readWith (quietly blank) table text) ∧
      ReadsAlike (BookSource.read text) (BookSource.readWith (quietly blank) text) := by
  constructor
  · exact (parallel_termText table text.toList).readsAlike
  · rw [BookSource.read_eq, BookSource.readWith, BookSource.leadingBlocksWith_quietly]
    exact (parallel_bookText _ text.toList).readsAlike.map _

/-- Behind the term stands a slash that begins no comment.  The failure is reported behind the slash,
where a second one was looked for, and not at the slash, where the text should end. -/
theorem Tree.read_behind_slash :
    Tree.read .empty "* /x" = .error ⟨"* /x".toList, ⟨3, 4⟩, .unexpected, ["'/'"], some "x"⟩ ∧
      Tree.readWith (quietly blank) .empty "* /x" =
        .error ⟨"* /x".toList, ⟨2, 3⟩, .unexpected, ["end of input"], some "/"⟩ :=
  ⟨read_eq_error_iff.mpr ⟨by decide +kernel, by decide +kernel⟩,
    read_eq_error_iff.mpr ⟨by decide +kernel, by decide +kernel⟩⟩

end InteractionGraph
