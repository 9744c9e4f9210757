import InteractionGraph.Proofs.Grammar.Layout
import InteractionGraph.Proofs.Parse.Place

/-!
# What an alternative gives account of

An alternative starts and stops at places of the text, and its reason says something of what stands
there (`Accounts`).  A list of expectations is not empty.  A rejection names a whole token, which
stands at the start: the span is that of the token for a constructor and for a label, and that of
its first digit for an integer.

The difference comes from what was tried before.  Alternatives that start at one place are joined,
and the span of the first of them is kept.  An integer is read last of all the forms of a term, each
of which has left the span of one character.  Behind the marks of constructors and of labels nothing
else is tried, or it comes farther.  So no list of expectations starts at a token behind its mark
(`IsMarked`), and this is what makes accounts stay true when they are joined
(`Coherent.farther`).
-/

namespace InteractionGraph

/-! ## Joining alternatives -/

namespace Parse.Alternative

variable {alternative another : Alternative}

theorem farther_of_lt (h : alternative.span.start < another.span.start) :
    alternative.farther another = another := by
  rw [farther, if_pos h]

theorem farther_of_gt (h : another.span.start < alternative.span.start) :
    alternative.farther another = alternative := by
  rw [farther, if_neg (Nat.lt_asymm h), if_pos h]

theorem farther_of_eq (h : alternative.span.start = another.span.start) :
    alternative.farther another =
      ⟨alternative.span, alternative.reason.join another.reason⟩ := by
  rw [farther, if_neg (Nat.not_lt_of_le h.ge), if_neg (Nat.not_lt_of_le h.le)]

theorem mk_farther_mk (span : Span) (reason joined : Reason) :
    Alternative.farther ⟨span, reason⟩ ⟨span, joined⟩ = ⟨span, reason.join joined⟩ :=
  farther_of_eq rfl

theorem start_farther :
    (alternative.farther another).span.start =
      max alternative.span.start another.span.start := by
  rcases Nat.lt_trichotomy alternative.span.start another.span.start with h | h | h
  · rw [farther_of_lt h, max_eq_right h.le]
  · rw [farther_of_eq h, h, max_self]
  · rw [farther_of_gt h, max_eq_left h.le]

end Parse.Alternative

namespace Grammar

open Parse Parser Text

variable {text : List Char} {table : ConstructorTable} {place first last other : Place text}

/-! ## Tokens at a place -/

/-- The letters stand between the two places, and no other of the kind follows. -/
structure IsRun (accepts : Char → Bool) (letters : List Char) (first last : Place text) :
    Prop where
  accepted : ∀ c ∈ letters, accepts c = true
  rest : first.rest = letters ++ last.rest
  stops : Stops accepts last.rest

/-- The letters stand between the two places and are a whole token: there is at least one. -/
structure IsToken (accepts : Char → Bool) (letters : List Char) (first last : Place text) :
    Prop extends IsRun accepts letters first last where
  nonempty : letters ≠ []

/-- At the place stands a token that its mark has made one: letters behind `#` or digits behind
`&`. -/
def IsMarked (place : Place text) : Prop :=
  place.Follows '#' ∧ ¬ Stops isNameChar place.rest ∨
    place.Follows '&' ∧ ¬ Stops Char.isDigit place.rest

theorem IsRun.before_eq {accepts : Char → Bool} {letters : List Char}
    (h : IsRun accepts letters first last) : last.before = first.before ++ letters := by
  have happend := last.append.trans first.append.symm
  rw [h.rest, ← List.append_assoc] at happend
  exact List.append_cancel_right happend

theorem IsRun.offset_eq {accepts : Char → Bool} {letters : List Char}
    (h : IsRun accepts letters first last) : last.offset = first.offset + byteLength letters :=
  Place.offset_of_append h.before_eq

theorem IsRun.offset_lt {accepts : Char → Bool} {letters : List Char}
    (h : IsRun accepts letters first last) (hne : letters ≠ []) : first.offset < last.offset :=
  Place.offset_lt_of_append h.before_eq hne

theorem IsRun.last_unique {accepts : Char → Bool} {letters : List Char}
    (h : IsRun accepts letters first last) (h' : IsRun accepts letters first other) :
    last = other :=
  Place.ext_of_offset (h.offset_eq.trans h'.offset_eq.symm)

theorem IsToken.not_stops {accepts : Char → Bool} {letters : List Char}
    (h : IsToken accepts letters first last) : ¬ Stops accepts first.rest := by
  obtain ⟨c, others, rfl⟩ := List.exists_cons_of_ne_nil h.nonempty
  intro hstops
  have hc := hstops c (by rw [h.rest]; rfl)
  rw [h.accepted c List.mem_cons_self] at hc
  cases hc

/-- A place directly behind a character that is no mark. -/
theorem not_isMarked_of_follows {c : Char} (h : place.Follows c) (hc : c ≠ '#' ∧ c ≠ '&') :
    ¬ IsMarked place := by
  rintro (⟨hfollows, -⟩ | ⟨hfollows, -⟩)
  · exact hc.1 (h.unique hfollows)
  · exact hc.2 (h.unique hfollows)

theorem not_isMarked_of_stops (h : Stops isNameChar place.rest) : ¬ IsMarked place := by
  rintro (⟨-, hletter⟩ | ⟨-, hdigit⟩)
  · exact hletter h
  · refine hdigit fun c hc => Bool.eq_false_iff.mpr fun hc' => ?_
    have hname := h c hc
    rw [isNameChar_of_isDigit hc'] at hname
    cases hname

/-- A place directly behind characters that are no marks. -/
theorem not_isMarked_of_append {letters : List Char} (h : last.before = first.before ++ letters)
    (hne : letters ≠ []) (hmarks : ∀ c ∈ letters, c ≠ '#' ∧ c ≠ '&') : ¬ IsMarked last :=
  not_isMarked_of_follows (Place.follows_of_append h (List.getLast?_eq_some_getLast hne))
    (hmarks _ (List.getLast_mem hne))

/-- The same if there may be no such characters. -/
theorem not_isMarked_behind {letters : List Char} (h : last.before = first.before ++ letters)
    (hempty : letters = [] → ¬ IsMarked first) (hmarks : ∀ c ∈ letters, c ≠ '#' ∧ c ≠ '&') :
    ¬ IsMarked last := by
  by_cases hne : letters = []
  · rw [hne] at h
    rw [Place.eq_of_append_nil h]
    exact hempty hne
  · exact not_isMarked_of_append h hne hmarks

theorem not_isMarked_start : ¬ IsMarked (Place.start text) := by
  rintro (⟨⟨⟩, -⟩ | ⟨⟨⟩, -⟩)

/-- Letters are no room. -/
theorem fresh_of_not_stops {rest : List Char} (h : ¬ Stops isNameChar rest) : Fresh rest := by
  cases rest with
  | nil => exact absurd (by rintro c ⟨⟩) h
  | cons c rest =>
    have hc : isNameChar c = true := by
      by_contra hc
      refine h ?_
      rintro d ⟨⟩
      exact Bool.eq_false_iff.mpr hc
    constructor
    · rintro d ⟨⟩
      exact isBlank_of_isNameChar hc
    · rw [List.cons_prefix_cons]
      rintro ⟨rfl, -⟩
      exact absurd hc (by decide)

/-! ## Reasons -/

/-- What it means that a token was turned down between two places. -/
def Rejects (table : ConstructorTable) (first last : Place text) : Rejection → Prop
  | .unknownConstructor name =>
    first.Follows '#' ∧ IsToken isNameChar name.toList first last ∧ table.resolve name = none
  | .labelTooLarge digits =>
    first.Follows '&' ∧ IsToken Char.isDigit digits.toList first last ∧
      wordOfDigits? digits.toList = none
  | .integerTooLarge digits =>
    last = first.next ∧ (∃ behind : Place text, IsToken isNameChar digits.toList first behind) ∧
      (∀ c ∈ digits.toList, c.isDigit = true) ∧ wordOfDigits? digits.toList = none

/-- What the reason of an alternative between two places says of the text. -/
def Accounts (table : ConstructorTable) (first last : Place text) : Reason → Prop
  | .expected expectations =>
    expectations ≠ [] ∧ ¬ IsMarked first ∧ (Fresh first.rest → last = first.next)
  | .rejected rejection => Rejects table first last rejection

/-- The alternative gives account of a part of the text. -/
structure Coherent (table : ConstructorTable) (text : List Char) (alternative : Alternative) :
    Prop where
  accounts : ∃ first last : Place text, alternative.span = ⟨first.offset, last.offset⟩ ∧
    first.offset ≤ last.offset ∧ Accounts table first last alternative.reason

/-- A token is turned down where its mark stands, unless it is an integer. -/
theorem Rejects.isMarked_or {rejection : Rejection} (h : Rejects table first last rejection) :
    IsMarked first ∨ ¬ Stops isNameChar first.rest ∧
      ∀ stop : Place text, stop = first.next → Rejects table first stop rejection := by
  cases rejection with
  | unknownConstructor name => exact .inl (.inl ⟨h.1, h.2.1.not_stops⟩)
  | labelTooLarge digits => exact .inl (.inr ⟨h.1, h.2.1.not_stops⟩)
  | integerTooLarge digits =>
    obtain ⟨-, ⟨behind, htoken⟩, hdigits⟩ := h
    exact .inr ⟨htoken.not_stops, fun _ hstop => ⟨hstop, ⟨behind, htoken⟩, hdigits⟩⟩

/-- The start and the rejected token determine where the span ends. -/
theorem Rejects.last_unique {rejection : Rejection} (h : Rejects table first last rejection)
    (hother : Rejects table first other rejection) : last = other := by
  cases rejection with
  | unknownConstructor name => exact h.2.1.last_unique hother.2.1.toIsRun
  | labelTooLarge digits => exact h.2.1.last_unique hother.2.1.toIsRun
  | integerTooLarge digits => exact h.1.trans hother.1.symm

/-! ## Accounts that are joined -/

/-- Two accounts that start at one place are joined in one, over the span of the first. -/
theorem Accounts.join {reason joined : Reason} (h : Accounts table first last reason)
    (hjoined : Accounts table first other joined) :
    Accounts table first last (reason.join joined) := by
  cases reason with
  | rejected rejection => exact h
  | expected expectations =>
    obtain ⟨hne, hmarked, hnext⟩ := h
    cases joined with
    | expected others => exact ⟨by simp [unite, hne], hmarked, hnext⟩
    | rejected rejection =>
      -- Only an integer can be turned down here, and it is so over one character.
      obtain ⟨hletter, hrejects⟩ := hjoined.isMarked_or.resolve_left hmarked
      exact hrejects last (hnext (fresh_of_not_stops hletter))

theorem Coherent.farther {alternative another : Alternative}
    (h : Coherent table text alternative) (hanother : Coherent table text another) :
    Coherent table text (alternative.farther another) := by
  rcases Nat.lt_trichotomy alternative.span.start another.span.start with hlt | heq | hgt
  · rwa [Alternative.farther_of_lt hlt]
  · obtain ⟨first, last, hspan, hlast, haccounts⟩ := h.accounts
    obtain ⟨first', last', hspan', -, haccounts'⟩ := hanother.accounts
    rw [Alternative.farther_of_eq heq]
    rw [hspan, hspan'] at heq
    obtain rfl := Place.ext_of_offset heq
    exact ⟨_, last, hspan, hlast, haccounts.join haccounts'⟩
  · rwa [Alternative.farther_of_gt hgt]

/-- An alternative that lists something at a place that no mark is before. -/
theorem coherent_of_expected {expectations : List Expectation} (hne : expectations ≠ [])
    (hmarked : ¬ IsMarked place) :
    Coherent table text ⟨place.nextSpan, .expected expectations⟩ :=
  ⟨place, place.next, rfl, place.offset_le_next, hne, hmarked, fun _ => rfl⟩

/-- Two coherent alternatives that turn down one token at one place have one span. -/
theorem Coherent.span_unique {alternative another : Alternative} {rejection : Rejection}
    (h : Coherent table text alternative) (hanother : Coherent table text another)
    (hreason : alternative.reason = .rejected rejection)
    (hreason' : another.reason = .rejected rejection)
    (hstart : alternative.span.start = another.span.start) :
    alternative.span = another.span := by
  obtain ⟨first, last, hspan, -, haccounts⟩ := h.accounts
  obtain ⟨first', last', hspan', -, haccounts'⟩ := hanother.accounts
  rw [hspan, hspan'] at hstart
  obtain rfl := Place.ext_of_offset hstart
  rw [hreason] at haccounts
  rw [hreason'] at haccounts'
  rw [hspan, hspan', Rejects.last_unique haccounts haccounts']

end Grammar

end InteractionGraph
