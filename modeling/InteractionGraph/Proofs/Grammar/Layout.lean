import InteractionGraph.Proofs.Grammar.Lexeme
import InteractionGraph.Proofs.Parse.Gives

/-!
# How a text is cut into tokens

`Spells` says which texts may be laid out for given tokens.  Seen from the text, it is cut from the
left, and each piece is as long as it can be: first all the room there is (`Room`), then a token to
its end (`Longest`).  `Scans` cuts tokens off a text in this way, and does not care what the tokens
are for.

What the parsers of room and of tokens give is such a piece.  Both ways to see a text agree, except
that a comment at its very end needs no line feed (`Scans.spells`).
-/

namespace InteractionGraph.Grammar

open Parse Parser Text

variable {text rest gap piece after : List Char} {token : Token} {tokens others : List Token}

/-- The gap is all the room before the rest: white space and comments, each of these up to the end
of its line, as far as they go. -/
inductive Room : List Char → List Char → Prop where
  | nil {rest : List Char} : Fresh rest → Room [] rest
  | blank {c : Char} {gap rest : List Char} :
    isBlank c = true → Room gap rest → Room (c :: gap) rest
  | comment {body gap rest : List Char} :
    '\n' ∉ body → (∀ c ∈ (gap ++ rest).head?, c = '\n') → Room gap rest →
      Room ('/' :: '/' :: (body ++ gap)) rest

/-- A piece of the room before the rest of a text: a character of white space, or a comment, which
goes on to the end of its line or of the text. -/
inductive IsPiece : List Char → List Char → Prop where
  | blank {c : Char} {rest : List Char} : isBlank c = true → IsPiece [c] rest
  | comment {body rest : List Char} :
    '\n' ∉ body → (∀ c ∈ rest.head?, c = '\n') → IsPiece ('/' :: '/' :: body) rest

/-- The text is room, as much as there is, and then the rest. -/
def Spaces (text rest : List Char) : Prop := ∃ gap, text = gap ++ rest ∧ Room gap rest

/-- The token does not go on in the text: letters end where no letter follows, and an operator is
the longest one that stands there. -/
structure Longest (token : Token) (text : List Char) : Prop where
  letters : ∀ c ∈ token.getLast?, isNameChar c = true → Stops isNameChar text
  symbol : ∀ op other : Operator, token = op.symbol.toList →
    other.symbol.toList <+: token ++ text → other.symbol.toList.length ≤ token.length

/-- The tokens are cut off the text one by one, each behind all the room before it, and the rest is
left. -/
inductive Scans : List Token → List Char → List Char → Prop where
  | nil {text : List Char} : Scans [] text text
  | cons {gap after rest : List Char} {token : Token} {tokens : List Token} :
    Room gap (token ++ after) → token ≠ [] → Longest token after → Scans tokens after rest →
      Scans (token :: tokens) (gap ++ (token ++ after)) rest

/-- The text is a reading of the term: cut into tokens that derive the term, with nothing left but
room. -/
def IsReading (table : ConstructorTable) (tree : Tree) (text : List Char) : Prop :=
  ∃ tokens rest, Derives table tree tokens ∧ Scans tokens text rest ∧ Room rest []

/-! ## Room and tokens -/

theorem Room.fresh (h : Room gap rest) : Fresh rest := by
  induction h with
  | nil hfresh => exact hfresh
  | blank _ _ ih => exact ih
  | comment _ _ _ ih => exact ih

/-- A piece before all room is room with it. -/
theorem Room.cons (hpiece : IsPiece piece (gap ++ rest)) (h : Room gap rest) :
    Room (piece ++ gap) rest := by
  cases hpiece with
  | blank hblank => exact .blank hblank h
  | comment hbody hline => exact .comment hbody hline h

theorem IsPiece.ne_nil (h : IsPiece piece rest) : piece ≠ [] := by
  cases h with
  | blank _ => exact List.cons_ne_nil _ _
  | comment _ _ => exact List.cons_ne_nil _ _

/-- Room that is not empty does not begin with a letter. -/
theorem Room.stops_of_ne_nil (h : Room gap rest) (hne : gap ≠ []) :
    Stops isNameChar (gap ++ rest) := by
  cases h with
  | nil _ => exact absurd rfl hne
  | @blank c _ _ hblank _ =>
    rintro d ⟨⟩
    refine Bool.eq_false_iff.mpr fun hname => ?_
    rw [isBlank_of_isNameChar hname] at hblank
    cases hblank
  | comment _ _ _ =>
    rintro d ⟨⟩
    decide

/-- Room does not begin with a letter. -/
theorem Room.stops (h : Room gap rest) (hrest : Stops isNameChar rest) :
    Stops isNameChar (gap ++ rest) := by
  by_cases hne : gap = []
  · subst hne
    exact hrest
  · exact h.stops_of_ne_nil hne

/-- Room is a gap, if the last line of the text ends with a line feed. -/
theorem Room.isGap {tail : List Char} (h : Room gap rest) (htail : IsGap tail)
    (hend : rest = [] → '\n' ∈ tail.head?) : IsGap (gap ++ tail) := by
  induction h with
  | nil _ => exact htail
  | blank hblank _ ih => exact .blank hblank (ih hend)
  | @comment body gap rest hbody hline hroom ih =>
    have hgap := ih hend
    have hfeed : '\n' ∈ (gap ++ tail).head? := by
      cases hroom with
      | nil hfresh =>
        cases rest with
        | nil => exact hend rfl
        | cons c rest =>
          have hblank := hfresh.1 c rfl
          rw [hline c rfl] at hblank
          exact absurd hblank (by decide)
      | blank _ _ => rw [hline _ rfl]; rfl
      | comment _ _ _ => exact absurd (hline '/' rfl) (by decide)
    obtain ⟨more, hmore⟩ := List.head?_eq_some_iff.mp hfeed
    rw [List.cons_append, List.cons_append, List.append_assoc]
    rw [hmore] at hgap ⊢
    refine .comment hbody ?_
    generalize hfirst : '\n' :: more = all at hgap
    cases hgap with
    | nil => cases hfirst
    | blank _ hgap =>
      cases hfirst
      exact hgap
    | comment _ _ => exact absurd (List.cons_eq_cons.mp hfirst).1 (by decide)

/-- Room before a text that is not empty is a gap. -/
theorem Room.isGap_of_ne_nil (h : Room gap rest) (hne : rest ≠ []) : IsGap gap := by
  have hgap : IsGap (gap ++ []) := h.isGap .nil fun hrest => absurd hrest hne
  rwa [List.append_nil] at hgap

theorem Longest.apart (h : Longest token text) (hfresh : Fresh (token ++ text)) :
    Apart token (text ++ ['\n']) := by
  constructor
  · intro c hc d hd hname
    cases text with
    | nil =>
      cases hd
      decide
    | cons e text =>
      cases hd
      exact h.letters c hc hname d rfl
  · rintro rfl hslash
    cases text with
    | nil => exact absurd hslash (by decide)
    | cons e text =>
      cases hslash
      exact hfresh.2 ⟨text, rfl⟩

/-- Tokens that are cut off a text are laid out in it. -/
theorem Scans.spells (h : Scans tokens text rest) (hrest : Room rest []) :
    Spells tokens (text ++ ['\n']) := by
  induction h with
  | nil => exact .nil (hrest.isGap (.blank (by decide) .nil) fun _ => rfl)
  | @cons gap after rest token tokens hroom hne hlongest _ ih =>
    have hgap : IsGap gap := hroom.isGap_of_ne_nil (by simp [hne])
    rw [List.append_assoc, List.append_assoc]
    exact .cons hgap (hlongest.apart hroom.fresh) (ih hrest)

theorem Scans.append {middle : List Char} (hfirst : Scans tokens text middle)
    (hsecond : Scans others middle rest) : Scans (tokens ++ others) text rest := by
  induction hfirst with
  | nil => exact hsecond
  | cons hroom hne hlongest _ ih => exact .cons hroom hne hlongest (ih hsecond)

/-- No gap stands before a text that does not begin like room. -/
theorem Room.eq_nil (h : Room gap rest) (hfresh : Fresh (gap ++ rest)) : gap = [] := by
  cases h with
  | nil _ => rfl
  | blank hblank _ =>
    have hnot := hfresh.1 _ rfl
    rw [hblank] at hnot
    cases hnot
  | @comment body gap _ _ _ _ => exact absurd ⟨body ++ gap ++ rest, rfl⟩ hfresh.2

/-- The first of some tokens begins a text that does not begin like room. -/
theorem Scans.eq_of_fresh (h : Scans (token :: tokens) text rest) (hfresh : Fresh text) :
    ∃ after, text = token ++ after := by
  cases h with
  | @cons gap after _ _ _ hroom _ _ _ =>
    obtain rfl := hroom.eq_nil hfresh
    exact ⟨after, rfl⟩

/-- Tokens are cut off behind the room before them. -/
theorem Spaces.trans_scans {middle : List Char} (h : Spaces text middle)
    (hscans : Scans (token :: tokens) middle rest) : Scans (token :: tokens) text rest := by
  obtain ⟨gap, rfl, hroom⟩ := h
  cases hscans with
  | @cons gap' after _ _ _ hroom' hne hlongest hafter =>
    obtain rfl := hroom'.eq_nil hroom.fresh
    exact .cons hroom hne hlongest hafter

/-! ## What the parser of room gives -/

variable {cursor behind : Cursor} {u : Unit}

theorem gives_whitespace (h : Gives whitespace cursor u behind) :
    ∃ c, cursor.rest = c :: behind.rest ∧ isBlank c = true := by
  unfold whitespace at h
  simp only [gives_named, gives_bind, gives_pure] at h
  obtain ⟨c, middle, hc, -, rfl⟩ := h
  exact ⟨c, rest_of_gives_satisfy hc⟩

/-- The characters of a comment are all up to the end of the line. -/
theorem takes_comment : Takes (do notFollowedBy (char '\n'); anyChar) (· != '\n') where
  gives := by
    intro cursor c behind h
    simp only [gives_bind, gives_notFollowedBy] at h
    obtain ⟨-, middle, ⟨hfails, rfl⟩, hany⟩ := h
    obtain ⟨hrest, -⟩ := rest_of_gives_satisfy hany
    refine ⟨hrest, ?_⟩
    rw [bne_iff_ne]
    rintro rfl
    have hfeed : Gives (char '\n') middle () (middle.advance '\n' behind.rest) :=
      gives_char.mpr ⟨_, hrest, rfl⟩
    exact hfeed.not_fails hfails
  fails := by
    rintro ⟨offset, text⟩ hfails c hc
    cases text with
    | nil => cases hc
    | cons d text =>
      cases hc
      refine Bool.eq_false_iff.mpr fun hne => ?_
      have hchar : Refuses (char '\n') (c :: text) := .char (by simpa using hne)
      have hread : Reads (do notFollowedBy (char '\n'); anyChar) (c :: text) c text :=
        (Reads.notFollowedBy hchar).bind (.satisfy rfl text)
      exact hread.not_fails hfails

theorem gives_comment (h : Gives comment cursor u behind) :
    ∃ body, cursor.rest = '/' :: '/' :: (body ++ behind.rest) ∧ '\n' ∉ body ∧
      ∀ c ∈ behind.rest.head?, c = '\n' := by
  unfold comment at h
  simp only [gives_named, gives_bind, gives_pure] at h
  obtain ⟨_, middle, hslashes, body, _, hbody, -, rfl⟩ := h
  obtain ⟨hrest, hline, hend⟩ := takes_comment.gives_many hbody
  refine ⟨body, ?_, ?_, ?_⟩
  · rw [rest_of_gives_chars hslashes, hrest]
    rfl
  · intro hmem
    exact absurd (hline '\n' hmem) (by decide)
  · simpa [Stops] using hend

/-- Where neither white space nor a comment is, the text does not begin like room. -/
theorem fresh_of_fails (h : Fails (whitespace <|> comment) cursor) : Fresh cursor.rest := by
  obtain ⟨offset, text⟩ := cursor
  obtain ⟨hwhitespace, hcomment⟩ := fails_orElse.mp h
  constructor
  · rintro c hc
    cases text with
    | nil => cases hc
    | cons d text =>
      cases hc
      refine Bool.eq_false_iff.mpr fun hblank => ?_
      exact (reads_whitespace hblank text).not_fails hwhitespace
  · rintro ⟨more, rfl⟩
    -- A comment that has begun is read.
    obtain ⟨middle, hslashes⟩ := Reads.chars ['/', '/'] more offset
    have hmany : ¬ Fails (many do notFollowedBy (char '\n'); anyChar) ⟨middle, more⟩ :=
      not_fails_many
    obtain ⟨body, behind, hbody⟩ := not_fails_iff.mp hmany
    have hgives : Gives comment ⟨offset, ['/', '/'] ++ more⟩ () behind := by
      unfold comment
      simp only [gives_named, gives_bind, gives_pure]
      exact ⟨(), _, hslashes, body, behind, hbody, trivial, rfl⟩
    exact hgives.not_fails hcomment

/-- Each round of the parser of room takes one piece. -/
theorem gives_piece (h : Gives (whitespace <|> comment) cursor u behind) :
    ∃ piece, cursor.rest = piece ++ behind.rest ∧ IsPiece piece behind.rest := by
  rcases gives_orElse.mp h with hspace | ⟨-, hcomment⟩
  · obtain ⟨c, hrest, hblank⟩ := gives_whitespace hspace
    exact ⟨[c], hrest, .blank hblank⟩
  · obtain ⟨body, hrest, hbody, hline⟩ := gives_comment hcomment
    exact ⟨'/' :: '/' :: body, hrest, .comment hbody hline⟩

theorem advances_room : Advances (whitespace <|> comment) := by
  intro cursor u behind h
  obtain ⟨piece, hrest, hpiece⟩ := gives_piece h
  have hpos := List.length_pos_iff.mpr hpiece.ne_nil
  rw [hrest, List.length_append]
  omega

/-- All room there is, is read. -/
theorem gives_blank (h : Gives blank cursor u behind) : Spaces cursor.rest behind.rest := by
  unfold blank at h
  simp only [gives_bind, gives_pure] at h
  obtain ⟨units, _, hmany, -, rfl⟩ := h
  have hfresh := fresh_of_fails (hmany.fails_of_many advances_room)
  have hruns := hmany.runs
  clear hmany
  induction hruns with
  | nil => exact ⟨[], rfl, .nil hfresh⟩
  | cons hfirst _ ih =>
    obtain ⟨gap, hgap, hroom⟩ := ih hfresh
    obtain ⟨piece, hrest, hpiece⟩ := gives_piece hfirst
    rw [hgap] at hrest hpiece
    exact ⟨piece ++ gap, by rw [hrest, List.append_assoc], hroom.cons hpiece⟩

/-! ## What the parsers of tokens give -/

theorem gives_name {n : String} (h : Gives name cursor n behind) :
    IsName n ∧ cursor.rest = n.toList ++ behind.rest ∧ Stops isNameChar behind.rest := by
  unfold name at h
  simp only [gives_named, gives_bind, gives_pure] at h
  obtain ⟨letters, _, hletters, rfl, rfl⟩ := h
  obtain ⟨hmany, hleast⟩ := gives_manyAtLeast.mp hletters
  obtain ⟨hrest, hall, hend⟩ := (takes_satisfy isNameChar).gives_many hmany
  rw [IsName, String.toList_ofList]
  exact ⟨⟨List.length_pos_iff.mp hleast, hall⟩, hrest, hend⟩

theorem isNumeral_of_wordOfDigits? {digits : List Char} {value : UInt32} (hne : digits ≠ [])
    (hdigits : ∀ c ∈ digits, c.isDigit = true) (h : wordOfDigits? digits = some value) :
    IsNumeral digits value := by
  refine ⟨hne, hdigits, ?_⟩
  simp only [wordOfDigits?] at h
  split at h
  · rename_i hlt
    cases h
    rw [UInt32.toNat_ofNat_of_lt' hlt]
  · cases h

theorem gives_label {value : UInt32} (h : Gives label cursor value behind) :
    ∃ digits, IsNumeral digits value ∧ cursor.rest = digits ++ behind.rest := by
  unfold label at h
  obtain ⟨digits, hdigits, hcheck⟩ := gives_verify.mp h
  obtain ⟨hmany, hleast⟩ := gives_manyAtLeast.mp (gives_named.mp hdigits)
  obtain ⟨hrest, hall, -⟩ := ((takes_satisfy Char.isDigit).named .digit).gives_many hmany
  unfold labelOfDigits at hcheck
  split at hcheck
  · rename_i found hword
    cases hcheck
    exact ⟨digits, isNumeral_of_wordOfDigits? (List.length_pos_iff.mp hleast) hall hword, hrest⟩
  · cases hcheck

theorem gives_constructorName {letters : List Char}
    (h : Gives constructorName cursor letters behind) :
    cursor.rest = letters ++ behind.rest ∧ ∀ c ∈ letters, isNameChar c = true := by
  unfold constructorName at h
  obtain ⟨hrest, hall, -⟩ := (takes_satisfy isNameChar).gives_many (gives_named.mp h)
  exact ⟨hrest, hall⟩

theorem namesConstructor_of_resolveName {table : ConstructorTable} {letters : List Char}
    {id : UInt32} (hletters : ∀ c ∈ letters, isNameChar c = true)
    (h : resolveName table letters = .ok id) : NamesConstructor table letters id := by
  refine ⟨hletters, ?_⟩
  simp only [resolveName] at h
  split at h
  · rename_i found hfound
    cases h
    exact hfound
  · cases h

theorem gives_constructorId {table : ConstructorTable} {id : UInt32}
    (h : Gives (constructorId table) cursor id behind) :
    ∃ letters, NamesConstructor table letters id ∧ cursor.rest = letters ++ behind.rest := by
  obtain ⟨letters, hletters, hresolve⟩ := gives_verify.mp h
  obtain ⟨hrest, hall⟩ := gives_constructorName hletters
  exact ⟨letters, namesConstructor_of_resolveName hall hresolve, hrest⟩

theorem gives_armId {table : ConstructorTable} {id : UInt32}
    (h : Gives (armId table) cursor id behind) :
    ∃ letters, NamesArm table letters id ∧ cursor.rest = letters ++ behind.rest ∧
      ∀ c ∈ letters, isNameChar c = true := by
  obtain ⟨letters, hletters, hresolve⟩ := gives_verify.mp h
  obtain ⟨hrest, hall⟩ := gives_constructorName hletters
  refine ⟨letters, ?_, hrest, hall⟩
  unfold NamesArm
  unfold resolveArmName at hresolve
  split at hresolve
  · rename_i hwildcard
    cases hresolve
    rw [if_pos hwildcard]
  · rename_i hwildcard
    rw [if_neg hwildcard]
    exact namesConstructor_of_resolveName hall hresolve

/-- The longer symbols are tried first. -/
theorem operators_length_pairwise :
    operators.Pairwise fun op other =>
      other.symbol.toList.length ≤ op.symbol.toList.length := by
  decide

/-- The operator that is read is the first of which the symbol stands there. -/
theorem gives_choice_symbol {op : Operator} {candidates : List Operator}
    (h : Gives (choice (candidates.map fun operator => do
      chars operator.symbol.toList
      return operator)) cursor op behind) :
    cursor.rest = op.symbol.toList ++ behind.rest ∧
      ∃ before after, candidates = before ++ op :: after ∧
        ∀ other ∈ before, ¬ other.symbol.toList <+: cursor.rest := by
  induction candidates with
  | nil => exact absurd h not_gives_fail
  | cons candidate candidates ih =>
    rw [List.map_cons, gives_choice_cons] at h
    rcases h with hfirst | ⟨hfails, hothers⟩
    · obtain ⟨_, _, hchars, hpure⟩ := gives_bind.mp hfirst
      obtain ⟨rfl, rfl⟩ := gives_pure.mp hpure
      exact ⟨rest_of_gives_chars hchars, [], candidates, rfl, by simp⟩
    · obtain ⟨hrest, before, after, hsplit, hbefore⟩ := ih hothers
      refine ⟨hrest, candidate :: before, after, by rw [hsplit]; rfl, ?_⟩
      refine List.forall_mem_cons.mpr ⟨?_, hbefore⟩
      obtain ⟨offset, text⟩ := cursor
      rintro ⟨more, rfl⟩
      exact ((Reads.chars _ more).bind (.pure candidate more)).not_fails hfails

/-- The longest operator is read. -/
theorem gives_operator {op : Operator} (h : Gives operator cursor op behind) :
    cursor.rest = op.symbol.toList ++ behind.rest ∧
      ∀ other : Operator, other.symbol.toList <+: cursor.rest →
        other.symbol.toList.length ≤ op.symbol.toList.length := by
  obtain ⟨hrest, before, after, hsplit, hbefore⟩ := gives_choice_symbol (gives_named.mp h)
  have hordered := operators_length_pairwise
  rw [hsplit] at hordered
  refine ⟨hrest, ?_⟩
  intro other hprefix
  have hmem := mem_operators other
  rw [hsplit, List.mem_append] at hmem
  rcases hmem with hmem | hmem
  · exact absurd hprefix (hbefore other hmem)
  · rcases List.mem_cons.mp hmem with rfl | hmem
    · exact Nat.le_refl _
    · exact List.rel_of_pairwise_cons (List.pairwise_append.mp hordered).2.1 hmem

/-! ## Tokens that are cut off -/

theorem Fresh.spaces (h : Fresh text) : Spaces text text := ⟨[], rfl, .nil h⟩

theorem Spaces.scans (h : Spaces text (token ++ after)) (hne : token ≠ [])
    (hlongest : Longest token after) : Scans [token] text after := by
  obtain ⟨gap, rfl, hroom⟩ := h
  exact .cons hroom hne hlongest .nil

theorem isNameChar_of_mem_symbol (op : Operator) :
    ∀ c ∈ op.symbol.toList, isNameChar c = false := by
  cases op <;> decide

/-- A token with letters at its end is no operator. -/
theorem longest_letters {letters : List Char} (mark : List Char) (hne : letters ≠ [])
    (hletters : ∀ c ∈ letters, isNameChar c = true) (hstops : Stops isNameChar after) :
    Longest (mark ++ letters) after where
  letters := fun _ _ _ => hstops
  symbol := by
    intro op _ hsymbol _
    obtain ⟨c, hc⟩ := List.exists_mem_of_ne_nil letters hne
    have hmem : c ∈ op.symbol.toList := hsymbol ▸ List.mem_append_right mark hc
    have hname := hletters c hc
    rw [isNameChar_of_mem_symbol op c hmem] at hname
    cases hname

/-- A token of one character is the longest: of these characters only `*` is an operator, and no
other operator begins with it. -/
theorem longest_symbol {c : Char} (hc : c ∈ punctuation) : Longest [c] after where
  letters := by
    rintro _ ⟨⟩ hname
    exact absurd hc (notMem_of_isNameChar hname (by decide))
  symbol := by
    intro op other hsymbol hprefix
    have hop : ∀ op : Operator, op.symbol.toList ∈ punctuation.map ([·]) →
        op.symbol.toList = ['*'] := by
      intro op
      cases op <;> decide
    have hother : ∀ other : Operator, other.symbol.toList.head? = some '*' →
        other.symbol.toList = ['*'] := by
      intro other
      cases other <;> decide
    have hstar := hop op (hsymbol ▸ List.mem_map_of_mem hc)
    rw [List.singleton_append] at hprefix
    rw [hother other]
    · exact Nat.le_refl _
    · rw [head?_symbol hprefix, ← List.head?_cons (a := c), hsymbol, hstar]
      rfl

/-- The mark of a constructor without a name is no operator. -/
theorem longest_hash : Longest ['#'] after where
  letters := by
    rintro _ ⟨⟩ hname
    exact absurd hname (by decide)
  symbol := by
    intro op _ hsymbol
    cases op <;> exact absurd hsymbol (by decide)

/-! ## Rules -/

variable {middle : Cursor} {v : Unit}

theorem scans_symbol {c : Char} (hc : c ∈ punctuation) (hroom : Spaces text cursor.rest)
    (hchar : Gives (char c) cursor u behind) : Scans [[c]] text behind.rest := by
  obtain ⟨rest, hrest, rfl⟩ := gives_char.mp hchar
  rw [hrest] at hroom
  exact hroom.scans (List.cons_ne_nil c []) (longest_symbol hc)

/-- Room and a character behind it are not letters. -/
theorem stops_of_gives {c : Char} (hc : isNameChar c = false)
    (hroom : Gives blank cursor u middle) (hchar : Gives (char c) middle v behind) :
    Stops isNameChar cursor.rest := by
  obtain ⟨rest, hrest, rfl⟩ := gives_char.mp hchar
  obtain ⟨gap, hgap, hroom⟩ := gives_blank hroom
  rw [hgap]
  refine hroom.stops ?_
  rw [hrest]
  rintro _ ⟨⟩
  exact hc

theorem scans_name {n : String} (hroom : Spaces text cursor.rest)
    (hname : Gives name cursor n behind) : IsName n ∧ Scans [n.toList] text behind.rest := by
  obtain ⟨hn, hrest, hstops⟩ := gives_name hname
  rw [hrest] at hroom
  exact ⟨hn, hroom.scans hn.1 (longest_letters [] hn.1 hn.2 hstops)⟩

/-- A token of a mark and letters behind it. -/
theorem scans_marked {mark : Char} {letters : List Char} (hroom : Spaces text cursor.rest)
    (hmark : Gives (char mark) cursor u middle) (hrest : middle.rest = letters ++ behind.rest)
    (hlongest : Longest (mark :: letters) behind.rest) :
    Scans [(mark :: letters)] text behind.rest := by
  obtain ⟨rest, hfirst, rfl⟩ := gives_char.mp hmark
  rw [hfirst, show rest = letters ++ behind.rest from hrest] at hroom
  exact hroom.scans (List.cons_ne_nil mark letters) hlongest

theorem scans_label {value : UInt32} (hroom : Spaces text cursor.rest)
    (hmark : Gives (char '&') cursor u middle) (hlabel : Gives label middle value behind)
    (hstops : Stops isNameChar behind.rest) :
    ∃ digits, IsNumeral digits value ∧ Scans [('&' :: digits)] text behind.rest := by
  obtain ⟨digits, hdigits, hrest⟩ := gives_label hlabel
  exact ⟨digits, hdigits, scans_marked hroom hmark hrest
    (longest_letters ['&'] hdigits.1 hdigits.isNameChar hstops)⟩

theorem scans_hash {letters : List Char} (hroom : Spaces text cursor.rest)
    (hmark : Gives (char '#') cursor u middle) (hrest : middle.rest = letters ++ behind.rest)
    (hletters : ∀ c ∈ letters, isNameChar c = true) (hstops : Stops isNameChar behind.rest) :
    Scans [('#' :: letters)] text behind.rest := by
  refine scans_marked hroom hmark hrest ?_
  by_cases hne : letters = []
  · rw [hne]
    exact longest_hash
  · exact longest_letters ['#'] hne hletters hstops

theorem scans_operator {op : Operator} (hroom : Spaces text cursor.rest)
    (hop : Gives operator cursor op behind) : Scans [op.symbol.toList] text behind.rest := by
  obtain ⟨hrest, hmax⟩ := gives_operator hop
  rw [hrest] at hroom hmax
  refine hroom.scans (symbol_ne_nil op) ⟨?_, ?_⟩
  · intro c hc hname
    rw [isNameChar_of_mem_symbol op c (List.mem_of_getLast? hc)] at hname
    cases hname
  · intro _ other _ hprefix
    exact hmax other hprefix

end InteractionGraph.Grammar
