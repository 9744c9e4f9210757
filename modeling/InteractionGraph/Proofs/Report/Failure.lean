import InteractionGraph.Proofs.Grammar.BookComplete
import InteractionGraph.Proofs.Report.Forms
import InteractionGraph.Proofs.Report.Listing
import InteractionGraph.Proofs.Text.Position

/-!
# Reports of failure

A text that cannot be read has left an alternative, and this gives account of the text
(`Grammar.Failure`).  So the report is coherent in itself: the span lies in the text, the position is
that of its start, what was found stands there, and something would have been accepted unless a
token was turned down (`Report.IsCoherent`).

What is found where a token was turned down is this token, if it has a mark.  An integer has none,
and then it is the first digit (`Report.QuotesToken`).
-/

namespace InteractionGraph

open Parse Parser Text Grammar

variable {α : Type} {text : List Char} {table : ConstructorTable}

/-! ## What a failure leaves -/

/-- What a text has left that could not be read, and what it leaves without room. -/
structure Grammar.Failure (table : ConstructorTable) (text : List Char)
    (alternative quiet : Alternative) : Prop where
  coherent : Coherent table text alternative
  coherent_quiet : Coherent table text quiet
  plain : Plain quiet
  agrees : Agrees text (some alternative) (some quiet)

theorem Grammar.Parallel.failure {place : Place text} {post : Place text → Prop}
    {reply quiet : Reply α} (h : Parallel table place post reply quiet)
    (hfails : reply.result? = none) :
    ∃ alternative other, reply.alternative? = some alternative ∧
      quiet.alternative? = some other ∧ Failure table text alternative other := by
  obtain ⟨hsome, hagrees⟩ := h.fails hfails
  obtain ⟨other, hother⟩ := Option.isSome_iff_exists.mp hsome
  rw [hother] at hagrees
  obtain ⟨alternative, halternative⟩ := Option.isSome_iff_exists.mp hagrees.isSome
  rw [halternative] at hagrees
  obtain ⟨hleaves, hplain⟩ := h.leaves_quiet other hother
  exact ⟨alternative, other, halternative, hother,
    (h.leaves alternative halternative).coherent, hleaves.coherent, hplain, hagrees⟩

theorem Parse.Parser.read_eq_error_iff {p : Parser α} {report : Report} :
    p.read text = .error report ↔ (p (.ofText text)).result? = none ∧
      report = .ofFailure text (p (.ofText text)).alternative? := by
  rw [Parser.read]
  cases (p (.ofText text)).result? with
  | none => simp [eq_comm]
  | some reading => simp

theorem BookSource.read_eq_error_iff {text : String} {report : Report} :
    BookSource.read text = .error report ↔
      (bookText (.ofBlocks (leadingBlocks text.toList))).read text.toList = .error report := by
  rw [BookSource.read_eq]
  cases (bookText (.ofBlocks (leadingBlocks text.toList))).read text.toList <;> simp [Except.map]

/-- A term that cannot be read has left an alternative, which the report is made from. -/
theorem exists_failure_of_term {text : String} {report : Report}
    (h : Tree.read table text = .error report) :
    ∃ alternative quiet, report = .ofAlternative text.toList alternative ∧
      Failure table text.toList alternative quiet := by
  obtain ⟨hfails, rfl⟩ := read_eq_error_iff.mp h
  obtain ⟨alternative, quiet, hleft, -, hfailure⟩ :=
    (parallel_termText table text.toList).failure hfails
  exact ⟨alternative, quiet, by rw [hleft]; rfl, hfailure⟩

theorem exists_failure_of_book {text : String} {report : Report}
    (h : BookSource.read text = .error report) :
    ∃ alternative quiet, report = .ofAlternative text.toList alternative ∧
      Failure (.ofBlocks (BookSource.leadingBlocks text.toList)) text.toList alternative quiet := by
  obtain ⟨hfails, rfl⟩ := read_eq_error_iff.mp (BookSource.read_eq_error_iff.mp h)
  obtain ⟨alternative, quiet, hleft, -, hfailure⟩ :=
    (parallel_bookText _ text.toList).failure hfails
  exact ⟨alternative, quiet, by rw [hleft]; rfl, hfailure⟩

theorem exists_failure_of_read {text : String} {report : Report}
    (h : Tree.read table text = .error report ∨ BookSource.read text = .error report) :
    ∃ table alternative quiet, report = .ofAlternative text.toList alternative ∧
      Failure table text.toList alternative quiet := by
  rcases h with h | h
  · exact ⟨_, exists_failure_of_term h⟩
  · exact ⟨_, exists_failure_of_book h⟩

/-- Where a list is left, something in it is not of room. -/
theorem Grammar.Failure.exists_listed {alternative quiet : Alternative}
    (h : Failure table text alternative quiet) {expectations : List Expectation}
    (hreason : alternative.reason = .expected expectations) :
    ∃ expectation ∈ expectations, expectation.isLayout = false := by
  cases h.agrees with
  | slashed hslashed _ =>
    obtain ⟨others, hothers, hmem⟩ := hslashed.expects
    rw [hreason] at hothers
    obtain rfl := Reason.expected.inj hothers
    exact ⟨_, hmem, rfl⟩
  | both hmatches =>
    cases hmatches with
    | rejected _ => cases hreason
    | @expected _ _ span' _ others _ _ hwidens _ =>
      cases hreason
      obtain ⟨first, last, -, -, hne, -⟩ := h.coherent_quiet.accounts
      obtain ⟨expectation, hmem⟩ := List.exists_mem_of_ne_nil others hne
      exact ⟨expectation, hwidens.subset expectation hmem,
        (h.plain expectation ⟨others, rfl, hmem⟩).1⟩

/-! ## Coherent reports -/

namespace Report

/-- A report that fits the text and is coherent in itself. -/
structure IsCoherent (report : Report) : Prop where
  recorded : report.cause ≠ .unrecorded
  start_le_stop : report.span.start ≤ report.span.stop
  stop_le : report.span.stop ≤ byteLength report.text
  isBoundary_start : IsBoundary report.text report.span.start
  isBoundary_stop : IsBoundary report.text report.span.stop
  position_eq : ∀ before after, report.text = before ++ after →
    byteLength before = report.span.start →
    report.position = ⟨before.count '\n' + 1, (before.reverse.takeWhile (· != '\n')).length + 1⟩
  found?_eq_none_iff : report.found? = none ↔ report.span.start = byteLength report.text
  found?_of_unexpected : report.cause = .unexpected → ∀ before c after,
    report.text = before ++ c :: after → byteLength before = report.span.start →
    report.found? = some (String.singleton c)
  reason_of_unexpected : report.cause = .unexpected →
    (report.reason = "unexpected end of input" ↔ report.span.start = byteLength report.text)
  found?_of_rejected : ∀ rejection, report.cause = .rejected rejection →
    ∃ before token after, report.text = before ++ token ++ after ∧ token ≠ [] ∧
      byteLength before = report.span.start ∧ byteLength (before ++ token) = report.span.stop ∧
      report.found? = some (String.ofList token)
  pairwise_expected : report.expected.Pairwise fun first second => utf8 first < utf8 second
  expected_not_room : "whitespace" ∉ report.expected ∧ "comment" ∉ report.expected
  expected_eq_nil_iff : report.expected = [] ↔ ∃ rejection, report.cause = .rejected rejection

end Report

/-- A token that is turned down is not empty, and neither is what the span holds of it. -/
theorem Grammar.Rejects.exists_token {first last : Place text} {rejection : Rejection}
    (h : Rejects table first last rejection) :
    ∃ taken, taken ≠ [] ∧ last.before = first.before ++ taken := by
  cases rejection with
  | unknownConstructor name => exact ⟨_, h.2.1.nonempty, h.2.1.before_eq⟩
  | labelTooLarge digits => exact ⟨_, h.2.1.nonempty, h.2.1.before_eq⟩
  | integerTooLarge digits =>
    obtain ⟨rfl, ⟨behind, htoken⟩, -⟩ := h
    obtain ⟨c, others, hcons⟩ := List.exists_cons_of_ne_nil htoken.nonempty
    have hrest := htoken.rest
    rw [hcons, List.cons_append] at hrest
    exact ⟨[c], List.cons_ne_nil _ _, Place.before_next hrest⟩

theorem Text.unexpected_quoted_ne (c : Char) :
    "unexpected " ++ quoted c ≠ "unexpected end of input" := by
  rw [← String.toList_inj.ne]
  simp [quoted]

namespace Report

theorem text_ofAlternative (alternative : Alternative) :
    (ofAlternative text alternative).text = text := by
  rw [ofAlternative]
  split <;> rfl

theorem span_ofAlternative (alternative : Alternative) :
    (ofAlternative text alternative).span = alternative.span := by
  rw [ofAlternative]
  split <;> rfl

/-- The position of a report, whatever the report is about. -/
theorem position_of_place {report : Report} (place : Place report.text)
    (hstart : report.span.start = place.offset) {before after : List Char}
    (htext : report.text = before ++ after) (hbefore : byteLength before = report.span.start) :
    report.position =
      ⟨before.count '\n' + 1, (before.reverse.takeWhile (· != '\n')).length + 1⟩ := by
  obtain ⟨rfl, -⟩ := Place.eq_of_append htext (hbefore.trans hstart)
  rw [position, hstart, Position.ofOffset, place.splitAt?_offset, ← Position.behind_eq]

variable {first last : Place text} {expectations : List Expectation} {rejection : Rejection}
  {taken : List Char}

theorem foundAt?_offset : foundAt? text first.offset = first.rest.head?.map String.singleton := by
  rw [foundAt?, first.charAt?_offset]

theorem found?_of_expected :
    (ofAlternative text ⟨⟨first.offset, last.offset⟩, .expected expectations⟩).found? =
      first.rest.head?.map String.singleton :=
  foundAt?_offset

theorem found?_of_token (htaken : last.before = first.before ++ taken) (hne : taken ≠ []) :
    (ofAlternative text ⟨⟨first.offset, last.offset⟩, .rejected rejection⟩).found? =
      some (String.ofList taken) := by
  have hslice := Place.slice?_of_append htaken
  simp [ofAlternative, hslice, hne]

theorem listing_ne_nil (h : ∃ expectation ∈ expectations, expectation.isLayout = false) :
    listing expectations ≠ [] := by
  obtain ⟨expectation, hmem, hlayout⟩ := h
  exact List.ne_nil_of_mem (mem_listing.mpr ⟨expectation, hmem, hlayout, rfl⟩)

theorem not_mem_listing_of_room (expectations : List Expectation) :
    "whitespace" ∉ listing expectations ∧ "comment" ∉ listing expectations := by
  constructor
  · intro hmem
    obtain ⟨expectation, -, hlayout, htext⟩ := mem_listing.mp hmem
    rw [Expectation.isLayout_of_text (.inl htext)] at hlayout
    cases hlayout
  · intro hmem
    obtain ⟨expectation, -, hlayout, htext⟩ := mem_listing.mp hmem
    rw [Expectation.isLayout_of_text (.inr htext)] at hlayout
    cases hlayout

/-- The report of what would have been accepted is coherent, if there is anything. -/
theorem isCoherent_of_expected (hle : first.offset ≤ last.offset)
    (hlisted : ∃ expectation ∈ expectations, expectation.isLayout = false) :
    (ofAlternative text ⟨⟨first.offset, last.offset⟩, .expected expectations⟩).IsCoherent where
  recorded := nofun
  start_le_stop := hle
  stop_le := last.offset_le
  isBoundary_start := first.isBoundary
  isBoundary_stop := last.isBoundary
  position_eq := fun _ _ => position_of_place first rfl
  found?_eq_none_iff := by
    rw [found?_of_expected, Option.map_eq_none_iff, List.head?_eq_none_iff]
    exact Place.offset_eq_byteLength_iff.symm
  found?_of_unexpected := by
    intro _ before c after htext hbefore
    obtain ⟨-, hrest⟩ := Place.eq_of_append htext hbefore
    rw [found?_of_expected, ← hrest]
    rfl
  reason_of_unexpected := by
    intro _
    refine Iff.trans ?_ Place.offset_eq_byteLength_iff.symm
    cases hrest : first.rest with
    | nil => simp [reason, ofAlternative, foundAt?_offset, hrest]
    | cons c rest => simp [reason, ofAlternative, foundAt?_offset, hrest, unexpected_quoted_ne]
  found?_of_rejected := nofun
  pairwise_expected := (pairwise_listing expectations).imp utf8_lt_utf8_iff.mpr
  expected_not_room := not_mem_listing_of_room expectations
  expected_eq_nil_iff := iff_of_false (listing_ne_nil hlisted) nofun

/-- The report of a token that was turned down is coherent, if the span is not empty. -/
theorem isCoherent_of_rejected (htaken : last.before = first.before ++ taken) (hne : taken ≠ []) :
    (ofAlternative text ⟨⟨first.offset, last.offset⟩, .rejected rejection⟩).IsCoherent where
  recorded := nofun
  start_le_stop := by
    change first.offset ≤ last.offset
    rw [Place.offset_of_append htaken]
    exact Nat.le_add_right _ _
  stop_le := last.offset_le
  isBoundary_start := first.isBoundary
  isBoundary_stop := last.isBoundary
  position_eq := fun _ _ => position_of_place first rfl
  found?_eq_none_iff := by
    rw [found?_of_token htaken hne]
    refine iff_of_false nofun fun hend => ?_
    have hstop := Place.offset_of_append htaken
    have hpos := byteLength_pos hne
    have hle := last.offset_le
    change first.offset = byteLength text at hend
    omega
  found?_of_unexpected := nofun
  reason_of_unexpected := nofun
  found?_of_rejected := by
    intro _ _
    refine ⟨first.before, taken, last.rest, ?_, hne, rfl, ?_, found?_of_token htaken hne⟩
    · rw [← htaken, last.append]
      rfl
    · rw [← htaken]
      rfl
  pairwise_expected := .nil
  expected_not_room := ⟨nofun, nofun⟩
  expected_eq_nil_iff := iff_of_true rfl ⟨rejection, rfl⟩

end Report

theorem Grammar.Failure.isCoherent {alternative quiet : Alternative}
    (h : Failure table text alternative quiet) : (Report.ofAlternative text alternative).IsCoherent := by
  obtain ⟨first, last, hspan, hle, haccounts⟩ := h.coherent.accounts
  obtain ⟨span, reason⟩ := alternative
  obtain rfl : span = _ := hspan
  cases reason with
  | expected expectations => exact Report.isCoherent_of_expected hle (h.exists_listed rfl)
  | rejected rejection =>
    obtain ⟨taken, hne, htaken⟩ := haccounts.exists_token
    exact Report.isCoherent_of_rejected htaken hne

/-- Every text that cannot be read gives a coherent report of itself. -/
theorem isCoherent_of_read_eq_error {text : String} {report : Report}
    (h : Tree.read table text = .error report ∨ BookSource.read text = .error report) :
    report.text = text.toList ∧ report.IsCoherent := by
  obtain ⟨table, alternative, quiet, rfl, hfailure⟩ := exists_failure_of_read h
  exact ⟨Report.text_ofAlternative alternative, hfailure.isCoherent⟩

/-- The name of a constructor that no block declares. -/
theorem isCoherent_of_unknown :
    Tree.read .empty "#Foo{}" = .error ⟨"#Foo{}".toList, ⟨1, 4⟩,
        .rejected (.unknownConstructor "Foo"), [], some "Foo"⟩ ∧
      Report.IsCoherent ⟨"#Foo{}".toList, ⟨1, 4⟩,
        .rejected (.unknownConstructor "Foo"), [], some "Foo"⟩ := by
  have hread : Tree.read .empty "#Foo{}" = .error ⟨"#Foo{}".toList, ⟨1, 4⟩,
      .rejected (.unknownConstructor "Foo"), [], some "Foo"⟩ :=
    read_eq_error_iff.mpr ⟨by decide +kernel, by decide +kernel⟩
  exact ⟨hread, (isCoherent_of_read_eq_error (.inl hread)).2⟩

/-! ## Tokens that were turned down -/

/-- The span of the report holds the token that was turned down, and the report shows all of it. -/
def Report.QuotesToken (report : Report) (rejection : Rejection) : Prop :=
  slice? report.span.start report.span.stop report.text = some rejection.token.toList ∧
    report.found? = some rejection.token

/-- One digit is never too large. -/
theorem wordOfDigits?_singleton {c : Char} (h : c.isDigit = true) : wordOfDigits? [c] ≠ none := by
  have hle : c.toNat ≤ 57 := by
    simp only [Char.isDigit, Bool.and_eq_true, decide_eq_true_eq] at h
    exact UInt32.le_iff_toNat_le.mp h.2
  have hlt : Nat.ofDigitChars 10 [c] 0 < UInt32.size := by
    simp [Nat.ofDigitChars, UInt32.size]
    omega
  simp [wordOfDigits?, hlt]

theorem Report.quotesToken_of_append {first last : Place text} {rejection : Rejection}
    (htaken : last.before = first.before ++ rejection.token.toList)
    (hne : rejection.token.toList ≠ []) :
    (ofAlternative text ⟨⟨first.offset, last.offset⟩, .rejected rejection⟩).QuotesToken
      rejection := by
  refine ⟨Place.slice?_of_append htaken, ?_⟩
  rw [found?_of_token htaken hne, String.ofList_toList]

/-- A name of a constructor or a label that was turned down is quoted whole.  An integer is not: the
other forms of a term have been tried where it begins, and the span that they left is that of one
digit. -/
theorem quotesToken_iff {text : String} {report : Report} {rejection : Rejection}
    (h : Tree.read table text = .error report ∨ BookSource.read text = .error report)
    (hcause : report.cause = .rejected rejection) :
    (report.QuotesToken rejection ↔ ∀ digits, rejection ≠ .integerTooLarge digits) ∧
      ∀ digits, rejection = .integerTooLarge digits → ∃ c others,
        digits.toList = c :: others ∧ others ≠ [] ∧
          slice? report.span.start report.span.stop report.text = some [c] ∧
          report.found? = some (String.singleton c) := by
  obtain ⟨table, ⟨span, reason⟩, quiet, rfl, hfailure⟩ := exists_failure_of_read h
  obtain ⟨first, last, hspan, -, haccounts⟩ := hfailure.coherent.accounts
  obtain rfl : span = _ := hspan
  cases reason with
  | expected expectations => cases hcause
  | rejected found =>
    obtain rfl : found = rejection := Report.Cause.rejected.inj hcause
    cases found with
    | unknownConstructor name =>
      have hquotes : Report.QuotesToken _ (.unknownConstructor name) :=
        Report.quotesToken_of_append haccounts.2.1.before_eq haccounts.2.1.nonempty
      exact ⟨iff_of_true hquotes nofun, nofun⟩
    | labelTooLarge digits =>
      have hquotes : Report.QuotesToken _ (.labelTooLarge digits) :=
        Report.quotesToken_of_append haccounts.2.1.before_eq haccounts.2.1.nonempty
      exact ⟨iff_of_true hquotes nofun, nofun⟩
    | integerTooLarge digits =>
      obtain ⟨rfl, ⟨behind, htoken⟩, hdigits, hword⟩ := haccounts
      obtain ⟨c, others, hcons⟩ := List.exists_cons_of_ne_nil htoken.nonempty
      have hrest := htoken.rest
      rw [hcons, List.cons_append] at hrest
      have hothers : others ≠ [] := by
        rintro rfl
        rw [hcons] at hdigits hword
        exact wordOfDigits?_singleton (hdigits c List.mem_cons_self) hword
      have hslice := Place.slice?_of_append (Place.before_next hrest)
      refine ⟨iff_of_false ?_ fun hne => hne digits rfl, ?_⟩
      · rintro ⟨hall, -⟩
        have hdigit : some digits.toList = some [c] := hall.symm.trans hslice
        rw [Option.some_inj, hcons] at hdigit
        exact hothers (List.cons_eq_cons.mp hdigit).2
      · rintro _ ⟨⟩
        refine ⟨c, others, hcons, hothers, hslice, ?_⟩
        exact Report.found?_of_token (Place.before_next hrest) (List.cons_ne_nil _ _)

/-- The digits of a label, in a term that is given up there. -/
theorem quotesToken_label :
    Tree.read .empty "&4294967296{a b}" = .error ⟨"&4294967296{a b}".toList, ⟨1, 11⟩,
        .rejected (.labelTooLarge "4294967296"), [], some "4294967296"⟩ ∧
      Report.QuotesToken ⟨"&4294967296{a b}".toList, ⟨1, 11⟩,
        .rejected (.labelTooLarge "4294967296"), [], some "4294967296"⟩
        (.labelTooLarge "4294967296") := by
  have hread : Tree.read .empty "&4294967296{a b}" = .error ⟨"&4294967296{a b}".toList, ⟨1, 11⟩,
      .rejected (.labelTooLarge "4294967296"), [], some "4294967296"⟩ :=
    read_eq_error_iff.mpr ⟨by decide +kernel, by decide +kernel⟩
  exact ⟨hread, (quotesToken_iff (.inl hread) rfl).1.mpr nofun⟩

/-- Of the same digits as a term, only the first is quoted. -/
theorem Tree.read_integer_first_digit :
    Tree.read .empty "4294967296" = .error ⟨"4294967296".toList, ⟨0, 1⟩,
        .rejected (.integerTooLarge "4294967296"), [], some "4"⟩ ∧
      ¬ Report.QuotesToken ⟨"4294967296".toList, ⟨0, 1⟩,
        .rejected (.integerTooLarge "4294967296"), [], some "4"⟩
        (.integerTooLarge "4294967296") := by
  refine ⟨read_eq_error_iff.mpr ⟨by decide +kernel, by decide +kernel⟩, ?_⟩
  rintro ⟨-, hfound⟩
  exact absurd hfound (by decide)

end InteractionGraph
