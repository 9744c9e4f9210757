import InteractionGraph.Proofs.Grammar.Spelling
import InteractionGraph.Proofs.Parse.Reads

/-!
# Reading tokens

What the parsers of room and of tokens read in a text that is laid out by `Spells`.

Room is read up to the token behind it and not farther (`reads_blank`), because no token begins like
room: that is what `Solid` says of a token, and `Apart` of the text behind the operator `/`.
Names, numbers and operators are read to their end, because the text behind them does not go on like
them.
-/

namespace InteractionGraph.Grammar

open Parse Parser Text

variable {text rest : List Char}

/-! ## Characters -/

/-- The characters that a term begins with. -/
def Opens (c : Char) : Prop := c ∈ ['*', 'λ', '(', '&', '!', '@', '#', '~'] ∨ isNameChar c = true

instance (c : Char) : Decidable (Opens c) :=
  inferInstanceAs (Decidable (c ∈ ['*', 'λ', '(', '&', '!', '@', '#', '~'] ∨ isNameChar c = true))

/-- The characters of names are visible and in ASCII. -/
theorem toNat_of_isNameChar {c : Char} (h : isNameChar c = true) :
    0x20 < c.toNat ∧ c.toNat < 0x7f := by
  change (((((decide (65 ≤ c.val ∧ c.val ≤ 90) ||
    (decide (97 ≤ c.val) && decide (c.val ≤ 122))) ||
    (decide (48 ≤ c.val) && decide (c.val ≤ 57))) || c == '_') || c == '.') || c == '$') = true at h
  simp only [Bool.or_eq_true, Bool.and_eq_true, decide_eq_true_eq, beq_iff_eq] at h
  change ((((((65 ≤ c.toNat ∧ c.toNat ≤ 90) ∨ (97 ≤ c.toNat ∧ c.toNat ≤ 122)) ∨
    (48 ≤ c.toNat ∧ c.toNat ≤ 57)) ∨ c = '_') ∨ c = '.') ∨ c = '$') at h
  rcases h with (((h | h) | h) | h) | h
  · omega
  · omega
  · subst h
    decide
  · subst h
    decide
  · subst h
    decide

theorem isBlank_of_isNameChar {c : Char} (h : isNameChar c = true) : isBlank c = false := by
  have hcode := toNat_of_isNameChar h
  simp only [isBlank, Bool.or_eq_false_iff, Bool.and_eq_false_iff, decide_eq_false_iff_not,
    beq_eq_false_iff_ne]
  omega

theorem Opens.isBlank {c : Char} (h : Opens c) : isBlank c = false := by
  rcases h with hmem | hname
  · revert c
    decide
  · exact isBlank_of_isNameChar hname

/-- A character of a name is none of those that are not. -/
theorem notMem_of_isNameChar {c : Char} {others : List Char} (h : isNameChar c = true)
    (hothers : ∀ d ∈ others, isNameChar d = false) : c ∉ others := by
  intro hmem
  rw [hothers c hmem] at h
  cases h

/-! ## Room -/

/-- The text does not begin like room. -/
def Fresh (text : List Char) : Prop := Stops isBlank text ∧ ¬ ['/', '/'] <+: text

theorem refuses_whitespace (h : Stops isBlank text) : Refuses whitespace text := by
  unfold whitespace
  exact .named (.bind (.satisfy h))

theorem refuses_room (h : Fresh text) : Refuses (whitespace <|> comment) text := by
  have hcomment : Refuses comment text := by
    unfold comment
    exact .named (.bind (.chars h.2))
  exact (refuses_whitespace h.1).orElse hcomment

theorem reads_whitespace {c : Char} (h : isBlank c = true) (rest : List Char) :
    Reads whitespace (c :: rest) () rest := by
  unfold whitespace
  exact .named (.bind (.satisfy h rest) (.pure () rest))

/-- A comment is read up to the end of its line. -/
theorem reads_comment {body : List Char} (hbody : '\n' ∉ body) (rest : List Char) :
    Reads comment ('/' :: '/' :: (body ++ '\n' :: rest)) () ('\n' :: rest) := by
  have hline : ReadsMany (do notFollowedBy (char '\n'); anyChar) (body ++ '\n' :: rest) body
      ('\n' :: rest) := by
    induction body with
    | nil => exact .nil (Refuses.notFollowedBy (Reads.char '\n' rest)).bind
    | cons c body ih =>
      rw [List.mem_cons, not_or] at hbody
      have hc : Refuses (char '\n') (c :: (body ++ '\n' :: rest)) :=
        .char (by simpa using Ne.symm hbody.1)
      have hfirst : Reads (do notFollowedBy (char '\n'); anyChar) (c :: (body ++ '\n' :: rest)) c
          (body ++ '\n' :: rest) :=
        (Reads.notFollowedBy hc).bind (.satisfy rfl _)
      exact .cons hfirst (Nat.lt_succ_self _) (ih hbody.2)
  unfold comment
  refine .named (.bind (.chars ['/', '/'] _) ?_)
  exact hline.many.bind (.pure () _)

/-- A gap is read up to the token behind it. -/
theorem reads_blank {gap : List Char} (hgap : IsGap gap) (hrest : Fresh rest) :
    Reads blank (gap ++ rest) () rest := by
  have hmany : ∃ units, ReadsMany (whitespace <|> comment) (gap ++ rest) units
      rest := by
    induction hgap with
    | nil => exact ⟨[], .nil (refuses_room hrest)⟩
    | @blank c gap hc _ ih =>
      obtain ⟨units, hunits⟩ := ih
      exact ⟨() :: units, .cons (reads_whitespace hc _).orElse (Nat.lt_succ_self _) hunits⟩
    | @comment body gap hbody _ ih =>
      obtain ⟨units, hunits⟩ := ih
      -- The line feed is white space behind the comment.
      have hfeed : ReadsMany (whitespace <|> comment) ('\n' :: (gap ++ rest))
          (() :: units) rest :=
        .cons (reads_whitespace (by decide) _).orElse (Nat.lt_succ_self _) hunits
      have hnot : Refuses whitespace ('/' :: '/' :: (body ++ '\n' :: (gap ++ rest))) := by
        have hstops : Stops isBlank ('/' :: '/' :: (body ++ '\n' :: (gap ++ rest))) := by
          rintro c ⟨⟩
          decide
        exact refuses_whitespace hstops
      have hcomment := hnot.orElse_reads (reads_comment hbody (gap ++ rest))
      refine ⟨() :: () :: units, ?_⟩
      rw [List.cons_append, List.cons_append, List.append_assoc, List.cons_append]
      exact .cons hcomment (by simp; omega) hfeed
  obtain ⟨units, hunits⟩ := hmany
  exact hunits.many.bind (.pure () rest)

/-! ## Tokens -/

/-- A token does not begin like room, unless it is the operator `/`. -/
def Solid (token : Token) : Prop :=
  ∃ c cs, token = c :: cs ∧ isBlank c = false ∧ (c = '/' → cs = [])

theorem solid_of_isBlank {c : Char} (hblank : isBlank c = false) (hslash : c ≠ '/')
    (cs : List Char) : Solid (c :: cs) :=
  ⟨c, cs, rfl, hblank, fun heq => absurd heq hslash⟩

theorem solid_operator (operator : Operator) : Solid operator.symbol.toList := by
  cases operator <;> exact ⟨_, _, rfl, by decide, by decide⟩

theorem Opens.solid {c : Char} (h : Opens c) (cs : List Char) : Solid (c :: cs) := by
  refine solid_of_isBlank h.isBlank ?_ cs
  rintro rfl
  revert h
  decide

theorem solid_word {letters : List Char} (hne : letters ≠ [])
    (hletters : ∀ c ∈ letters, isNameChar c = true) : Solid letters := by
  obtain ⟨c, cs, rfl⟩ := List.exists_cons_of_ne_nil hne
  have hc : Opens c := .inr (hletters c List.mem_cons_self)
  exact hc.solid cs

/-- Behind the room before a token, the text goes on with the token. -/
theorem exists_reads_blank {token : Token} {tokens : List Token} (hsolid : Solid token)
    (h : Spells (token :: tokens) text) :
    ∃ after, Reads blank text () (token ++ after) ∧ Apart token after ∧ Spells tokens after ∧
      (token ++ after).length ≤ text.length := by
  cases h with
  | @cons gap after _ _ hgap hapart hafter =>
    obtain ⟨c, cs, rfl, hblank, hslash⟩ := hsolid
    have hfresh : Fresh (c :: cs ++ after) := by
      constructor
      · rintro d ⟨⟩
        exact hblank
      · rw [List.cons_append, List.cons_prefix_cons, not_and]
        rintro rfl
        obtain rfl := hslash rfl
        -- The token is the operator, so no slash follows.
        have hnot := hapart.2 rfl
        cases after with
        | nil => simp
        | cons d after =>
          rw [List.nil_append, List.cons_prefix_cons, not_and]
          rintro rfl
          exact absurd rfl hnot
    exact ⟨after, reads_blank hgap hfresh, hapart, hafter,
      (List.suffix_append gap (c :: cs ++ after)).length_le⟩

/-- A text begins with room or with its first token. -/
theorem head_of_spells {c d : Char} {cs : List Char} {tokens : List Token}
    (h : Spells ((c :: cs) :: tokens) text) (hd : d ∈ text.head?) :
    isBlank d = true ∨ d = '/' ∨ d = c := by
  cases h with
  | cons hgap _ _ =>
    cases hgap with
    | nil =>
      cases hd
      exact .inr (.inr rfl)
    | blank hblank _ =>
      cases hd
      exact .inl hblank
    | comment _ _ =>
      cases hd
      exact .inr (.inl rfl)

/-- A name ends before a token that does not begin like one. -/
theorem stops_of_spells {c : Char} {cs : List Char} {tokens : List Token}
    (h : Spells ((c :: cs) :: tokens) text) (hc : isNameChar c = false) :
    Stops isNameChar text := by
  intro d hd
  rcases head_of_spells h hd with hblank | rfl | rfl
  · apply Bool.eq_false_iff.mpr
    intro hname
    rw [isBlank_of_isNameChar hname] at hblank
    cases hblank
  · decide
  · exact hc

/-! ## Names and numbers -/

/-- Behind the letters of a token, the text does not go on with another one. -/
theorem Apart.stops {before letters : List Char} (h : Apart (before ++ letters) rest)
    (hne : letters ≠ []) (hletters : ∀ c ∈ letters, isNameChar c = true) :
    Stops isNameChar rest := by
  intro d hd
  have hlast : letters.getLast hne ∈ (before ++ letters).getLast? := by
    rw [List.getLast?_append, List.getLast?_eq_some_getLast hne]
    rfl
  exact h.1 _ hlast d hd (hletters _ (List.getLast_mem hne))

/-- Letters may be followed by what is not a letter. -/
theorem apart_of_stops {letters : List Char} (hletters : ∀ c ∈ letters, isNameChar c = true)
    (hrest : Stops isNameChar rest) : Apart letters rest := by
  constructor
  · intro _ _ d hd _
    exact hrest d hd
  · rintro rfl
    have hslash : isNameChar '/' = true := hletters '/' List.mem_cons_self
    exact absurd hslash (by decide)

/-- The characters, other than operators, that are a token of their own. -/
def punctuation : List Char := ['*', 'λ', '(', ')', '{', '}', '!', '=', '~', ':']

/-- Behind the room before a token of one character, the text goes on with this character. -/
theorem exists_symbol {c : Char} {tokens : List Token} (hc : c ∈ punctuation)
    (h : Spells ([c] :: tokens) text) :
    ∃ after, Reads blank text () (c :: after) ∧ Spells tokens after ∧
      after.length < text.length := by
  have hall : ∀ d ∈ punctuation, isBlank d = false ∧ d ≠ '/' := by decide
  obtain ⟨hblank, hslash⟩ := hall c hc
  obtain ⟨after, hroom, _, hafter, hle⟩ :=
    exists_reads_blank (solid_of_isBlank hblank hslash []) h
  exact ⟨after, hroom, hafter, hle⟩

/-- Behind the room before a token of letters, the text goes on with the token, and then not with a
letter. -/
theorem exists_word {letters : List Char} {tokens : List Token} (hne : letters ≠ [])
    (hletters : ∀ c ∈ letters, isNameChar c = true) (h : Spells (letters :: tokens) text) :
    ∃ after, Reads blank text () (letters ++ after) ∧ Stops isNameChar after ∧
      Spells tokens after ∧ after.length < text.length := by
  obtain ⟨after, hroom, hapart, hafter, hle⟩ := exists_reads_blank (solid_word hne hletters) h
  have hstops : Stops isNameChar after := by
    rw [← List.nil_append letters] at hapart
    exact hapart.stops hne hletters
  have hpos := List.length_pos_iff.mpr hne
  rw [List.length_append] at hle
  exact ⟨after, hroom, hstops, hafter, by omega⟩

/-- The same for a token of letters behind a mark that tells what they name. -/
theorem exists_marked {mark : Char} {letters : List Char} {tokens : List Token}
    (hmark : Opens mark) (hne : letters ≠ []) (hletters : ∀ c ∈ letters, isNameChar c = true)
    (h : Spells ((mark :: letters) :: tokens) text) :
    ∃ after, Reads blank text () (mark :: (letters ++ after)) ∧ Stops isNameChar after ∧
      Spells tokens after ∧ after.length < text.length := by
  obtain ⟨after, hroom, hapart, hafter, hle⟩ := exists_reads_blank (hmark.solid letters) h
  have hstops : Stops isNameChar after := by
    rw [← List.singleton_append] at hapart
    exact hapart.stops hne hletters
  rw [List.length_append, List.length_cons] at hle
  exact ⟨after, hroom, hstops, hafter, by omega⟩

theorem reads_name {n : String} (hn : IsName n) (hrest : Stops isNameChar rest) :
    Reads name (n.toList ++ rest) n rest := by
  have hletters := (ReadsMany.satisfy hn.2 hrest).manyAtLeast (List.length_pos_iff.mpr hn.1)
  have hpure : Reads (pure (String.ofList n.toList) : Parser String) rest n rest := by
    rw [String.ofList_toList]
    exact .pure n rest
  unfold name
  exact .named (hletters.bind hpure)

theorem isNameChar_of_isDigit {c : Char} (h : c.isDigit = true) : isNameChar c = true := by
  simp [isNameChar, Char.isAlphanum, h]

theorem IsNumeral.isNameChar {digits : List Char} {value : UInt32} (h : IsNumeral digits value) :
    ∀ c ∈ digits, isNameChar c = true :=
  fun c hc => isNameChar_of_isDigit (h.2.1 c hc)

theorem IsNumeral.wordOfDigits? {digits : List Char} {value : UInt32}
    (h : IsNumeral digits value) : wordOfDigits? digits = some value := by
  have hlt : value.toNat < UInt32.size := value.toNat_lt
  unfold Text.wordOfDigits?
  simp only [h.2.2, hlt, if_true, UInt32.ofNat_toNat]

theorem reads_label {digits : List Char} {value : UInt32} (h : IsNumeral digits value)
    (hrest : Stops isNameChar rest) : Reads label (digits ++ rest) value rest := by
  have hstops : Stops Char.isDigit rest := by
    intro c hc
    apply Bool.eq_false_iff.mpr
    intro hdigit
    have hname := hrest c hc
    rw [isNameChar_of_isDigit hdigit] at hname
    cases hname
  have hmany : ReadsMany (named .digit (satisfy Char.isDigit)) (digits ++ rest) digits rest :=
    (ReadsMany.satisfy h.2.1 hstops).named
  have hcheck : labelOfDigits digits = .ok value := by
    unfold labelOfDigits
    rw [h.wordOfDigits?]
  unfold label
  exact (hmany.manyAtLeast (List.length_pos_iff.mpr h.1)).named.verify hcheck

theorem reads_constructorId {table : ConstructorTable} {letters : List Char} {id : UInt32}
    (h : NamesConstructor table letters id) (hrest : Stops isNameChar rest) :
    Reads (constructorId table) (letters ++ rest) id rest := by
  have hcheck : resolveName table letters = .ok id := by
    simp only [resolveName, h.2]
  unfold constructorId constructorName
  exact (ReadsMany.satisfy h.1 hrest).many.named.verify hcheck

theorem reads_armId {table : ConstructorTable} {letters : List Char} {id : UInt32}
    (h : NamesArm table letters id) (hrest : Stops isNameChar rest) :
    Reads (armId table) (letters ++ rest) id rest := by
  have hboth : (∀ c ∈ letters, isNameChar c = true) ∧ resolveArmName table letters = .ok id := by
    unfold NamesArm at h
    unfold resolveArmName
    split at h
    · rename_i hwildcard
      subst hwildcard h
      exact ⟨by decide, rfl⟩
    · rename_i hwildcard
      exact ⟨h.1, by simp only [if_neg hwildcard, resolveName, h.2]⟩
  unfold armId constructorName
  exact (ReadsMany.satisfy hboth.1 hrest).many.named.verify hboth.2

/-! ## Operators -/

theorem mem_operators (op : Operator) : op ∈ operators := by
  cases op <;> decide

/-- An operator is tried before those that its symbol begins with. -/
theorem operators_pairwise :
    operators.Pairwise fun op other => ¬ op.symbol.toList <+: other.symbol.toList := by
  decide

theorem symbol_ne_nil (op : Operator) : op.symbol.toList ≠ [] := by
  cases op <;> decide

/-- The second character of a symbol. -/
theorem mem_tail_symbol {op : Operator} {c : Char} (h : c ∈ op.symbol.toList.tail) :
    c = '=' ∨ c = '<' ∨ c = '>' := by
  cases op <;> simp [Operator.symbol] at h <;> simp [h]

theorem head?_symbol {op : Operator} {c : Char} (h : op.symbol.toList <+: c :: text) :
    op.symbol.toList.head? = some c := by
  obtain ⟨d, ds, hsymbol⟩ := List.exists_cons_of_ne_nil (symbol_ne_nil op)
  rw [hsymbol, List.cons_prefix_cons] at h
  rw [hsymbol, h.1]
  rfl

theorem reads_operator (op : Operator) (hrest : ∀ c ∈ rest.head?, c ≠ '=' ∧ c ≠ '<' ∧ c ≠ '>') :
    Reads operator (op.symbol.toList ++ rest) op rest := by
  obtain ⟨before, after, hsplit⟩ := List.append_of_mem (mem_operators op)
  have hordered := operators_pairwise
  rw [hsplit] at hordered
  unfold operator
  rw [hsplit, List.map_append, List.map_cons]
  refine .named (.choice ?_ ((Reads.chars _ rest).bind (.pure op rest)))
  intro q hq
  obtain ⟨other, hother, rfl⟩ := List.mem_map.mp hq
  refine (Refuses.chars ?_).bind
  intro hprefix
  have hnot : ¬ other.symbol.toList <+: op.symbol.toList :=
    (List.pairwise_append.mp hordered).2.2 other hother op List.mem_cons_self
  rcases List.prefix_or_prefix_of_prefix hprefix (List.prefix_append _ rest) with h | ⟨more, hmore⟩
  · exact hnot h
  · -- The symbol of the other operator is longer, and the text would go on with the rest of it.
    cases more with
    | nil => exact hnot ⟨[], by rw [← hmore, List.append_nil, List.append_nil]⟩
    | cons c more =>
      rw [← hmore, List.prefix_append_right_inj] at hprefix
      have hc : c ∈ other.symbol.toList.tail := by
        rw [← hmore, List.tail_append_of_ne_nil (symbol_ne_nil op)]
        exact List.mem_append_right _ List.mem_cons_self
      obtain ⟨behind, rfl⟩ := hprefix
      have hfirst := hrest c rfl
      rcases mem_tail_symbol hc with rfl | rfl | rfl
      · exact hfirst.1 rfl
      · exact hfirst.2.1 rfl
      · exact hfirst.2.2 rfl

/-- No operator is read where none of the symbols stands. -/
theorem refuses_operator (h : ∀ op : Operator, ¬ op.symbol.toList <+: text) :
    Refuses operator text := by
  unfold operator
  refine .named (.choice ?_)
  intro q hq
  obtain ⟨op, _, rfl⟩ := List.mem_map.mp hq
  exact (Refuses.chars (h op)).bind

end InteractionGraph.Grammar
