import InteractionGraph.Proofs.Parse.Reads

/-!
# What a parser gave

`Reads` is about all places where a text can stand.  The way back starts from one run: a parser gave
a value at a cursor and stopped at another (`Gives`), and what its parts gave there is to be found.
For each combinator one lemma says this, with the same cursors all along, so that what one
alternative read can be compared with what another would have.

A repetition ends where its parser fails, provided that each round takes some character; otherwise
it might end because it was counted out (`Gives.fails_of_many`).
-/

namespace InteractionGraph.Parse.Parser

variable {α β : Type} {p other : Parser α} {next : α → Parser β} {cursor middle behind : Cursor}
  {value : α} {values : List α} {result : β}

/-- The parser gives a value at a cursor and stops at another. -/
def Gives (p : Parser α) (cursor : Cursor) (value : α) (behind : Cursor) : Prop :=
  (p cursor).result? = some (value, behind)

/-- The parser fails at a cursor. -/
def Fails (p : Parser α) (cursor : Cursor) : Prop := (p cursor).result? = none

theorem Gives.not_fails (h : Gives p cursor value behind) : ¬ Fails p cursor := by
  intro hfails
  rw [Fails, h] at hfails
  cases hfails

/-- A parser gives one value at a cursor and stops at one. -/
theorem Gives.unique {others : α} {last : Cursor} (h : Gives p cursor value behind)
    (hother : Gives p cursor others last) : value = others ∧ behind = last := by
  rw [Gives, h] at hother
  cases hother
  exact ⟨rfl, rfl⟩

theorem not_fails_iff : ¬ Fails p cursor ↔ ∃ value behind, Gives p cursor value behind := by
  constructor
  · intro h
    obtain ⟨⟨value, behind⟩, hgives⟩ := Option.ne_none_iff_exists'.mp h
    exact ⟨value, behind, hgives⟩
  · rintro ⟨value, behind, hgives⟩
    exact hgives.not_fails

theorem Reads.not_fails {text rest : List Char} {offset : Nat} (h : Reads p text value rest) :
    ¬ Fails p ⟨offset, text⟩ := by
  obtain ⟨behind, hgives⟩ := h offset
  exact Gives.not_fails hgives

/-! ## Sequences -/

theorem gives_pure {found : α} :
    Gives (Pure.pure value : Parser α) cursor found behind ↔ found = value ∧ behind = cursor := by
  simp [Gives, eq_comm]

theorem gives_bind : Gives (p >>= next) cursor result behind ↔
    ∃ value middle, Gives p cursor value middle ∧ Gives (next value) middle result behind := by
  cases hfirst : (p cursor).result? with
  | none => simp [Gives, bind_apply_of_none hfirst, hfirst]
  | some reading =>
    obtain ⟨value, middle⟩ := reading
    simp only [Gives, bind_apply_of_some hfirst, hfirst, Option.some.injEq, Prod.mk.injEq]
    constructor
    · exact fun h => ⟨value, middle, ⟨rfl, rfl⟩, h⟩
    · rintro ⟨_, _, ⟨rfl, rfl⟩, h⟩
      exact h

/-! ## Choices -/

theorem not_gives_fail : ¬ Gives (fail : Parser α) cursor value behind := nofun

theorem gives_orElse : Gives (p <|> other) cursor value behind ↔
    Gives p cursor value behind ∨ Fails p cursor ∧ Gives other cursor value behind := by
  change (Parser.orElse p (fun _ => other) cursor).result? = _ ↔ _
  cases hfirst : (p cursor).result? with
  | none => simp [Gives, Fails, Parser.orElse, hfirst]
  | some reading => simp [Gives, Fails, Parser.orElse, hfirst]

theorem fails_orElse : Fails (p <|> other) cursor ↔ Fails p cursor ∧ Fails other cursor := by
  change (Parser.orElse p (fun _ => other) cursor).result? = _ ↔ _
  cases hfirst : (p cursor).result? with
  | none => simp [Fails, Parser.orElse, hfirst]
  | some reading => simp [Fails, Parser.orElse, hfirst]

theorem gives_choice_cons {others : List (Parser α)} :
    Gives (choice (p :: others)) cursor value behind ↔
      Gives p cursor value behind ∨ Fails p cursor ∧ Gives (choice others) cursor value behind :=
  gives_orElse

theorem fails_choice {parsers : List (Parser α)} :
    Fails (choice parsers) cursor ↔ ∀ q ∈ parsers, Fails q cursor := by
  induction parsers with
  | nil => exact ⟨fun _ => nofun, fun _ => rfl⟩
  | cons q parsers ih =>
    rw [List.forall_mem_cons, ← ih]
    exact fails_orElse

/-! ## Single characters -/

theorem rest_of_gives_satisfy {accepts : Char → Bool} {c : Char}
    (h : Gives (satisfy accepts) cursor c behind) :
    cursor.rest = c :: behind.rest ∧ accepts c = true := by
  obtain ⟨offset, text⟩ := cursor
  cases text with
  | nil => cases h
  | cons d text =>
    by_cases hd : accepts d = true
    · simp only [Gives, satisfy, if_pos hd, Option.some.injEq, Prod.mk.injEq] at h
      obtain ⟨rfl, rfl⟩ := h
      exact ⟨rfl, hd⟩
    · simp only [Gives, satisfy, if_neg hd] at h
      cases h

theorem gives_char {wanted : Char} {u : Unit} : Gives (char wanted) cursor u behind ↔
    ∃ rest, cursor.rest = wanted :: rest ∧ behind = cursor.advance wanted rest := by
  obtain ⟨offset, text⟩ := cursor
  cases text with
  | nil => simp [Gives, char]
  | cons d text =>
    by_cases hd : d = wanted
    · subst hd
      simp [Gives, char, eq_comm]
    · simp [Gives, char, hd]

theorem rest_of_gives_chars {cs : List Char} {u : Unit} (h : Gives (chars cs) cursor u behind) :
    cursor.rest = cs ++ behind.rest := by
  induction cs generalizing cursor with
  | nil =>
    obtain ⟨-, rfl⟩ := gives_pure.mp h
    rfl
  | cons c cs ih =>
    obtain ⟨_, middle, hc, hcs⟩ := gives_bind.mp h
    obtain ⟨rest, hrest, rfl⟩ := gives_char.mp hc
    rw [hrest, List.cons_append, ← ih hcs]
    rfl

theorem gives_endOfInput {u : Unit} :
    Gives endOfInput cursor u behind ↔ cursor.rest = [] ∧ behind = cursor := by
  obtain ⟨offset, text⟩ := cursor
  cases text <;> simp [Gives, endOfInput, eq_comm]

/-! ## Conditions -/

theorem gives_notFollowedBy {u : Unit} :
    Gives (notFollowedBy p) cursor u behind ↔ Fails p cursor ∧ behind = cursor := by
  simp only [Gives, Fails, notFollowedBy]
  split <;> simp_all [eq_comm]

theorem gives_verify {check : α → Except Rejection β} :
    Gives (verify p check) cursor result behind ↔
      ∃ value, Gives p cursor value behind ∧ check value = .ok result := by
  cases hread : (p cursor).result? with
  | none => simp [Gives, verify, hread]
  | some reading =>
    obtain ⟨value, last⟩ := reading
    simp only [Gives, verify, hread, Option.some.injEq, Prod.mk.injEq]
    constructor
    · intro h
      cases hcheck : check value with
      | ok found =>
        rw [hcheck] at h
        cases h
        exact ⟨value, ⟨rfl, rfl⟩, hcheck⟩
      | error rejection =>
        rw [hcheck] at h
        cases h
    · rintro ⟨_, ⟨rfl, rfl⟩, hcheck⟩
      rw [hcheck]

theorem gives_named {what : Construct} :
    Gives (named what p) cursor value behind ↔ Gives p cursor value behind :=
  .rfl

/-! ## Repetitions -/

/-- The parser gives values one behind the other. -/
inductive Runs (p : Parser α) : Cursor → List α → Cursor → Prop where
  | nil {cursor : Cursor} : Runs p cursor [] cursor
  | cons {cursor middle behind : Cursor} {value : α} {values : List α} :
    Gives p cursor value middle → Runs p middle values behind →
      Runs p cursor (value :: values) behind

/-- Each time the parser gives a value, it takes some character. -/
def Advances (p : Parser α) : Prop :=
  ∀ cursor value behind, Gives p cursor value behind → behind.rest.length < cursor.rest.length

theorem Runs.length_le (hadvances : Advances p) (h : Runs p cursor values behind) :
    behind.rest.length + values.length ≤ cursor.rest.length := by
  induction h with
  | nil => exact Nat.le_refl _
  | cons hfirst _ ih =>
    have hlt := hadvances _ _ _ hfirst
    rw [List.length_cons]
    omega

/-- A repetition ends where its parser fails, or where it was counted out. -/
theorem runs_of_manyUpTo {fuel : Nat} (h : Gives (manyUpTo p fuel) cursor values behind) :
    Runs p cursor values behind ∧ (Fails p behind ∨ values.length = fuel) := by
  induction fuel generalizing cursor values with
  | zero =>
    cases h
    exact ⟨.nil, .inr rfl⟩
  | succ fuel ih =>
    simp only [Gives, manyUpTo] at h
    cases hfirst : (p cursor).result? with
    | none =>
      rw [hfirst] at h
      cases h
      exact ⟨.nil, .inl hfirst⟩
    | some reading =>
      obtain ⟨value, middle⟩ := reading
      rw [hfirst] at h
      simp only [Option.map_eq_some_iff, Prod.mk.injEq] at h
      obtain ⟨⟨others, last⟩, hothers, rfl, rfl⟩ := h
      obtain ⟨hruns, hend⟩ := ih hothers
      exact ⟨.cons hfirst hruns, hend.imp_right (congrArg (· + 1))⟩

theorem Gives.runs (h : Gives (many p) cursor values behind) : Runs p cursor values behind :=
  (runs_of_manyUpTo h).1

/-- A repetition of a parser that takes some character each time ends where it fails. -/
theorem Gives.fails_of_many (hadvances : Advances p) (h : Gives (many p) cursor values behind) :
    Fails p behind := by
  obtain ⟨hruns, hend⟩ := runs_of_manyUpTo h
  refine hend.resolve_right ?_
  have hle := hruns.length_le hadvances
  omega

theorem gives_manyAtLeast {least : Nat} : Gives (manyAtLeast least p) cursor values behind ↔
    Gives (many p) cursor values behind ∧ least ≤ values.length := by
  rw [manyAtLeast, gives_bind]
  constructor
  · rintro ⟨found, middle, hmany, hvalues⟩
    split at hvalues
    · rename_i hleast
      obtain ⟨rfl, rfl⟩ := gives_pure.mp hvalues
      exact ⟨hmany, hleast⟩
    · exact absurd hvalues not_gives_fail
  · rintro ⟨hmany, hleast⟩
    refine ⟨values, behind, hmany, ?_⟩
    rw [if_pos hleast]
    exact gives_pure.mpr ⟨rfl, rfl⟩

/-- A repetition never fails. -/
theorem not_fails_manyUpTo (fuel : Nat) : ¬ Fails (manyUpTo p fuel) cursor := by
  induction fuel generalizing cursor with
  | zero => exact nofun
  | succ fuel ih =>
    intro hfails
    simp only [Fails, manyUpTo] at hfails
    split at hfails
    · cases hfails
    · exact ih (Option.map_eq_none_iff.mp hfails)

theorem not_fails_many : ¬ Fails (many p) cursor := not_fails_manyUpTo _

/-! ## Runs of characters -/

/-- The parser takes one character of a kind, and fails on all others. -/
structure Takes (p : Parser Char) (accepts : Char → Bool) : Prop where
  gives : ∀ {cursor c behind}, Gives p cursor c behind →
    cursor.rest = c :: behind.rest ∧ accepts c = true
  fails : ∀ {cursor}, Fails p cursor → Stops accepts cursor.rest

theorem takes_satisfy (accepts : Char → Bool) : Takes (satisfy accepts) accepts where
  gives := rest_of_gives_satisfy
  fails := by
    rintro ⟨offset, text⟩ hfails c hc
    cases text with
    | nil => cases hc
    | cons d text =>
      cases hc
      exact Bool.eq_false_iff.mpr fun hc => Reads.not_fails (.satisfy hc text) hfails

theorem Takes.named {accepts : Char → Bool} {p : Parser Char} (h : Takes p accepts)
    (what : Construct) : Takes (named what p) accepts :=
  ⟨h.gives, h.fails⟩

/-- A repetition takes the longest run of characters of the kind. -/
theorem Takes.gives_many {accepts : Char → Bool} {p : Parser Char} {letters : List Char}
    (htakes : Takes p accepts) (h : Gives (many p) cursor letters behind) :
    cursor.rest = letters ++ behind.rest ∧ (∀ c ∈ letters, accepts c = true) ∧
      Stops accepts behind.rest := by
  have hadvances : Advances p := by
    intro cursor c behind hgives
    rw [(htakes.gives hgives).1]
    exact Nat.lt_succ_self _
  have hfails := h.fails_of_many hadvances
  have hletters : cursor.rest = letters ++ behind.rest ∧ ∀ c ∈ letters, accepts c = true := by
    have hruns := h.runs
    clear h hfails
    induction hruns with
    | nil => exact ⟨rfl, by simp⟩
    | cons hfirst _ ih =>
      obtain ⟨hrest, hc⟩ := htakes.gives hfirst
      rw [hrest, ih.1]
      exact ⟨rfl, List.forall_mem_cons.mpr ⟨hc, ih.2⟩⟩
  exact ⟨hletters.1, hletters.2, htakes.fails hfails⟩

end InteractionGraph.Parse.Parser
