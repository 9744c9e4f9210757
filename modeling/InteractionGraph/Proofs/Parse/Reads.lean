import InteractionGraph.Parse.Basic

/-!
# What a parser reads

A `Reply` also tells what was expected and counts bytes.  For the question of what a text means
neither matters: `Reads p text value rest` says that `p` reads `value` at the beginning of `text`
and stops at `rest`, and `Refuses p text` that it fails, wherever in a longer text that is.

Each combinator has lemmas that derive one of the two for the whole from its parts.  So what a rule
of a grammar reads is shown by going through the rule, and no reply is looked into again.
-/

namespace InteractionGraph.Parse

namespace Parser

variable {α β : Type}

/-- The parser reads a value at the beginning of the text and stops at the rest. -/
def Reads (p : Parser α) (text : List Char) (value : α) (rest : List Char) : Prop :=
  ∀ offset, ∃ behind, (p ⟨offset, text⟩).result? = some (value, ⟨behind, rest⟩)

/-- The parser fails at the beginning of the text. -/
def Refuses (p : Parser α) (text : List Char) : Prop := ∀ offset, (p ⟨offset, text⟩).result? = none

variable {p other : Parser α} {next : α → Parser β} {text middle rest : List Char} {value : α}
  {result : β}

theorem Reads.unique {other : α} {rest' : List Char} (h : Reads p text value rest)
    (hother : Reads p text other rest') : value = other ∧ rest = rest' := by
  obtain ⟨behind, hbehind⟩ := h 0
  obtain ⟨behind', hbehind'⟩ := hother 0
  rw [hbehind] at hbehind'
  cases hbehind'
  exact ⟨rfl, rfl⟩

/-! ## Sequences -/

theorem Reads.pure (value : α) (text : List Char) :
    Reads (Pure.pure value : Parser α) text value text :=
  fun offset => ⟨offset, rfl⟩

theorem Reads.bind (hfirst : Reads p text value middle)
    (hnext : Reads (next value) middle result rest) : Reads (p >>= next) text result rest := by
  intro offset
  obtain ⟨between, hbetween⟩ := hfirst offset
  obtain ⟨behind, hbehind⟩ := hnext between
  exact ⟨behind, by rw [bind_apply_of_some hbetween, hbehind]⟩

theorem Refuses.bind (h : Refuses p text) : Refuses (p >>= next) text := by
  intro offset
  rw [bind_apply_of_none (h offset)]

theorem Reads.bind_refuses (hfirst : Reads p text value middle)
    (hnext : Refuses (next value) middle) : Refuses (p >>= next) text := by
  intro offset
  obtain ⟨between, hbetween⟩ := hfirst offset
  rw [bind_apply_of_some hbetween, hnext between]

/-! ## Choices -/

theorem Refuses.fail (text : List Char) : Refuses (fail : Parser α) text := fun _ => rfl

theorem Reads.orElse (h : Reads p text value rest) : Reads (p <|> other) text value rest := by
  intro offset
  obtain ⟨behind, hbehind⟩ := h offset
  refine ⟨behind, ?_⟩
  show (Parser.orElse p (fun _ => other) ⟨offset, text⟩).result? = _
  simp only [Parser.orElse, hbehind]

theorem Refuses.orElse_reads (h : Refuses p text) (hother : Reads other text value rest) :
    Reads (p <|> other) text value rest := by
  intro offset
  obtain ⟨behind, hbehind⟩ := hother offset
  refine ⟨behind, ?_⟩
  show (Parser.orElse p (fun _ => other) ⟨offset, text⟩).result? = _
  simp only [Parser.orElse, h offset, hbehind]

theorem Refuses.orElse (h : Refuses p text) (hother : Refuses other text) :
    Refuses (p <|> other) text := by
  intro offset
  show (Parser.orElse p (fun _ => other) ⟨offset, text⟩).result? = _
  simp only [Parser.orElse, h offset, hother offset]

/-- The parsers of a choice are tried in turn. -/
theorem Reads.choice {before after : List (Parser α)} (hbefore : ∀ q ∈ before, Refuses q text)
    (h : Reads p text value rest) :
    Reads (Parser.choice (before ++ p :: after)) text value rest := by
  induction before with
  | nil => exact h.orElse
  | cons q before ih =>
    have hothers : ∀ q ∈ before, Refuses q text :=
      fun q hq => hbefore q (List.mem_cons_of_mem _ hq)
    exact (hbefore q List.mem_cons_self).orElse_reads (ih hothers)

/-- The parser at a place of a choice is tried after those before it. -/
theorem Reads.choice_of_getElem? {parsers : List (Parser α)} (place : Nat)
    (hplace : parsers[place]? = some p) (hbefore : ∀ q ∈ parsers.take place, Refuses q text)
    (h : Reads p text value rest) : Reads (Parser.choice parsers) text value rest := by
  obtain ⟨hlt, rfl⟩ := List.getElem?_eq_some_iff.mp hplace
  have hsplit : parsers = parsers.take place ++ parsers[place] :: parsers.drop (place + 1) := by
    rw [← List.drop_eq_getElem_cons hlt, List.take_append_drop]
  rw [hsplit]
  exact h.choice hbefore

theorem Refuses.choice {parsers : List (Parser α)} (h : ∀ q ∈ parsers, Refuses q text) :
    Refuses (choice parsers) text := by
  induction parsers with
  | nil => exact .fail text
  | cons q parsers ih =>
    have hothers : ∀ q ∈ parsers, Refuses q text := fun q hq => h q (List.mem_cons_of_mem _ hq)
    exact (h q List.mem_cons_self).orElse (ih hothers)

/-! ## Single characters -/

theorem Reads.satisfy {accepts : Char → Bool} {c : Char} (h : accepts c = true)
    (rest : List Char) : Reads (satisfy accepts) (c :: rest) c rest := by
  intro offset
  refine ⟨offset + c.utf8Size, ?_⟩
  simp only [Parser.satisfy, h, if_true, Cursor.advance]

/-- The text does not go on with a character of a kind. -/
def Stops (accepts : Char → Bool) (text : List Char) : Prop :=
  ∀ c ∈ text.head?, accepts c = false

/-- Characters of a kind go on to where none follows, so two ways to go on are the same. -/
theorem eq_of_stops {accepts : Char → Bool} {letters others after : List Char}
    (hletters : ∀ c ∈ letters, accepts c = true) (hothers : ∀ c ∈ others, accepts c = true)
    (hafter : Stops accepts after) (hrest : Stops accepts rest)
    (h : letters ++ after = others ++ rest) : letters = others ∧ after = rest := by
  have htake : ∀ {letters after : List Char}, (∀ c ∈ letters, accepts c = true) →
      Stops accepts after → (letters ++ after).takeWhile accepts = letters := by
    intro letters after hletters hafter
    rw [List.takeWhile_append_of_pos hletters]
    cases after with
    | nil => simp
    | cons c after => simp [hafter c rfl]
  have heq : letters = others := by
    rw [← htake hletters hafter, h, htake hothers hrest]
  subst heq
  exact ⟨rfl, List.append_cancel_left h⟩

theorem Refuses.satisfy {accepts : Char → Bool} (h : Stops accepts text) :
    Refuses (satisfy accepts) text := by
  intro offset
  cases text with
  | nil => rfl
  | cons c rest =>
    have hc : accepts c = false := h c rfl
    simp only [Parser.satisfy, hc, Bool.false_eq_true, if_false]

theorem Reads.char (c : Char) (rest : List Char) : Reads (char c) (c :: rest) () rest := by
  intro offset
  refine ⟨offset + c.utf8Size, ?_⟩
  simp only [Parser.char, if_true, Cursor.advance]

theorem Refuses.char {wanted : Char} (h : wanted ∉ text.head?) : Refuses (char wanted) text := by
  intro offset
  cases text with
  | nil => rfl
  | cons c rest =>
    have hc : ¬ c = wanted := fun heq => h (by rw [heq]; rfl)
    simp only [Parser.char, if_neg hc]

theorem Reads.chars (cs rest : List Char) : Reads (chars cs) (cs ++ rest) () rest := by
  induction cs with
  | nil => exact .pure () rest
  | cons c cs ih => exact (Reads.char c (cs ++ rest)).bind ih

theorem Refuses.chars {cs : List Char} (h : ¬ cs <+: text) : Refuses (chars cs) text := by
  induction cs generalizing text with
  | nil => exact absurd List.nil_prefix h
  | cons c cs ih =>
    cases text with
    | nil => exact (Refuses.char (by simp)).bind
    | cons d text =>
      by_cases heq : c = d
      · subst heq
        rw [List.cons_prefix_cons, not_and] at h
        exact (Reads.char c text).bind_refuses (ih (h rfl))
      · exact (Refuses.char (by simpa using Ne.symm heq)).bind

theorem Reads.endOfInput : Reads endOfInput [] () [] := fun offset => ⟨offset, rfl⟩

/-! ## Conditions -/

theorem Reads.notFollowedBy (h : Refuses p text) : Reads (notFollowedBy p) text () text := by
  intro offset
  refine ⟨offset, ?_⟩
  simp only [Parser.notFollowedBy, h offset]

theorem Refuses.notFollowedBy (h : Reads p text value rest) : Refuses (notFollowedBy p) text := by
  intro offset
  obtain ⟨behind, hbehind⟩ := h offset
  simp only [Parser.notFollowedBy, hbehind]

theorem Reads.verify {check : α → Except Rejection β} (h : Reads p text value rest)
    (hcheck : check value = .ok result) : Reads (verify p check) text result rest := by
  intro offset
  obtain ⟨behind, hbehind⟩ := h offset
  refine ⟨behind, ?_⟩
  simp only [Parser.verify, hbehind, hcheck]

theorem Refuses.verify {check : α → Except Rejection β} (h : Refuses p text) :
    Refuses (verify p check) text := by
  intro offset
  simp only [Parser.verify, h offset]

theorem Reads.named {what : Construct} (h : Reads p text value rest) :
    Reads (named what p) text value rest := h

theorem Refuses.named {what : Construct} (h : Refuses p text) : Refuses (named what p) text := h

/-! ## Repetitions -/

/-- The parser reads values one after the other, each of at least one character, until it fails. -/
inductive ReadsMany (p : Parser α) : List Char → List α → List Char → Prop where
  | nil {text : List Char} : Refuses p text → ReadsMany p text [] text
  | cons {text middle rest : List Char} {value : α} {values : List α} :
    Reads p text value middle → middle.length < text.length → ReadsMany p middle values rest →
      ReadsMany p text (value :: values) rest

theorem ReadsMany.named {what : Construct} {values : List α} (h : ReadsMany p text values rest) :
    ReadsMany (Parser.named what p) text values rest := by
  induction h with
  | nil hrefuses => exact .nil hrefuses.named
  | cons hfirst hshorter _ ih => exact .cons hfirst.named hshorter ih

/-- The length of the text is enough for the number of repetitions. -/
theorem ReadsMany.manyUpTo {values : List α} (h : ReadsMany p text values rest) {fuel : Nat}
    (hfuel : text.length < fuel) : Reads (manyUpTo p fuel) text values rest := by
  induction h generalizing fuel with
  | @nil text hrefuses =>
    obtain ⟨fuel, rfl⟩ := Nat.exists_eq_add_one_of_ne_zero (Nat.ne_of_gt (Nat.zero_lt_of_lt hfuel))
    intro offset
    refine ⟨offset, ?_⟩
    simp only [Parser.manyUpTo, hrefuses offset]
  | @cons text middle rest value values hfirst hshorter _ ih =>
    obtain ⟨fuel, rfl⟩ := Nat.exists_eq_add_one_of_ne_zero (Nat.ne_of_gt (Nat.zero_lt_of_lt hfuel))
    have hothers := ih (show middle.length < fuel by omega)
    intro offset
    obtain ⟨between, hbetween⟩ := hfirst offset
    obtain ⟨behind, hbehind⟩ := hothers between
    refine ⟨behind, ?_⟩
    simp only [Parser.manyUpTo, hbetween, hbehind, Option.map_some]

theorem ReadsMany.many {values : List α} (h : ReadsMany p text values rest) :
    Reads (many p) text values rest :=
  fun offset => h.manyUpTo (Nat.lt_succ_self _) offset

theorem ReadsMany.manyAtLeast {values : List α} {least : Nat} (h : ReadsMany p text values rest)
    (hleast : least ≤ values.length) : Reads (manyAtLeast least p) text values rest := by
  refine h.many.bind ?_
  rw [if_pos hleast]
  exact .pure values rest

theorem ReadsMany.manyAtLeast_refuses {values : List α} {least : Nat}
    (h : ReadsMany p text values rest) (hleast : values.length < least) :
    Refuses (Parser.manyAtLeast least p) text := by
  refine h.many.bind_refuses ?_
  rw [if_neg (Nat.not_le_of_lt hleast)]
  exact .fail rest

/-- A run of accepted characters is read up to its end. -/
theorem ReadsMany.satisfy {accepts : Char → Bool} {letters : List Char}
    (hletters : ∀ c ∈ letters, accepts c = true) (hrest : Stops accepts rest) :
    ReadsMany (Parser.satisfy accepts) (letters ++ rest) letters rest := by
  induction letters with
  | nil => exact .nil (.satisfy hrest)
  | cons c letters ih =>
    obtain ⟨hc, hothers⟩ := List.forall_mem_cons.mp hletters
    exact .cons (.satisfy hc _) (Nat.lt_succ_self _) (ih hothers)

end Parser

end InteractionGraph.Parse
