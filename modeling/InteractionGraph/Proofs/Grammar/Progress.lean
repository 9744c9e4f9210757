import InteractionGraph.Grammar.Book
import InteractionGraph.Proofs.Grammar.Lists
import InteractionGraph.Proofs.Parse.Progress
import Mathlib.Data.List.Forall2

/-!
# Parsing goes on

Room, the name of a constructor and a list may be empty, so that a rule may go through many of its
steps without taking a character.  But each form of a term begins with a character of its own, and
starts its parts behind it.  This has two consequences.

* Each round of a repetition takes at least one character (`IsRepeated`, `Progresses`).  The rounds
  are counted up to a number that is never reached.
* Terms are started inside a term only behind its first character (`Enters`).  So they nest at most
  as deep as there are characters, and fuel for one level more is as good as any more of it.

Both hold of every text, whether it is read or turned down, and of the whole reply: what was left on
the way is the same too.
-/

namespace InteractionGraph.Grammar

open Parse Parser Text

variable {table : ConstructorTable} {α : Type} {start cursor : Cursor} {inner inner' : Parser Tree}
  {p q : Parser α}

/-! ## Tokens and the room between them -/

theorem alike_whitespace (cursor : Cursor) :
    Alike cursor.Passes (whitespace cursor) (whitespace cursor) :=
  .named ((alike_satisfy isBlank cursor).bind fun _ _ => alike_pure ()) _

/-- A character of a comment. -/
def commentChar : Parser Char := do
  notFollowedBy (char '\n')
  anyChar

theorem alike_commentChar (cursor : Cursor) :
    Alike cursor.Passes (commentChar cursor) (commentChar cursor) := by
  refine (alike_notFollowedBy rfl).bind fun _ middle hmiddle => ?_
  cases hmiddle
  exact alike_satisfy _ cursor

theorem alike_comment (cursor : Cursor) :
    Alike cursor.Passes (comment cursor) (comment cursor) := by
  have hbody : Onward cursor (many commentChar) (many commentChar) :=
    onward_of_reaches fun _ => alike_many fun later _ => alike_commentChar later
  exact .named ((alike_chars_cons '/' ['/'] cursor).bind fun _ =>
    hbody.bind fun _ => onward_pure ()) _

theorem alike_blank (cursor : Cursor) : Alike cursor.Reaches (blank cursor) (blank cursor) := by
  refine Alike.bind (alike_many fun later _ => ?_) fun _ _ => alike_pure ()
  exact (alike_whitespace later).orElse (alike_comment later)

/-- Room may be empty, so it is always found. -/
theorem exists_gives_blank (cursor : Cursor) : ∃ start, Gives blank cursor () start := by
  have hnot : ¬ Fails (many (whitespace <|> comment)) cursor := not_fails_many
  obtain ⟨values, start, hmany⟩ := not_fails_iff.mp hnot
  exact ⟨start, gives_bind.mpr ⟨values, start, hmany, gives_pure.mpr ⟨rfl, rfl⟩⟩⟩

theorem onward_blank : Onward start blank blank := onward_of_reaches alike_blank

theorem alike_name (cursor : Cursor) : Alike cursor.Passes (name cursor) (name cursor) := by
  have hletters : Alike cursor.Passes (manyAtLeast 1 (satisfy isNameChar) cursor)
      (manyAtLeast 1 (satisfy isNameChar) cursor) :=
    alike_self fun _ _ => passes_of_manyAtLeast (alike_satisfy isNameChar) Nat.one_pos
  exact .named (hletters.bind fun _ _ => alike_pure _) _

theorem onward_name : Onward start name name := onward_of_passes alike_name

theorem alike_digit (cursor : Cursor) :
    Alike cursor.Passes (named .digit (satisfy Char.isDigit) cursor)
      (named .digit (satisfy Char.isDigit) cursor) :=
  (alike_satisfy Char.isDigit cursor).named _

theorem onward_label : Onward start label label :=
  onward_of_passes fun _ => alike_verify fun _ _ hgives =>
    passes_of_manyAtLeast alike_digit Nat.one_pos (gives_named.mp hgives)

theorem alike_operator (cursor : Cursor) :
    Alike cursor.Passes (operator cursor) (operator cursor) := by
  refine .named (.choice (List.forall₂_same.mpr fun q hq => ?_)) _
  obtain ⟨op, -, rfl⟩ := List.mem_map.mp hq
  obtain ⟨c, letters, hsymbol⟩ := List.exists_cons_of_ne_nil (symbol_ne_nil op)
  rw [hsymbol]
  exact (alike_chars_cons c letters cursor).bind fun _ _ => alike_pure op

theorem onward_operator : Onward start operator operator := onward_of_passes alike_operator

/-- A name of a constructor may be empty. -/
theorem onward_verify_constructorName {check : List Char → Except Rejection α} :
    Onward start (verify constructorName check) (verify constructorName check) :=
  onward_of_reaches fun _ => alike_verify fun _ _ hgives =>
    (alike_many fun later _ => alike_satisfy isNameChar later).gives _ _ (gives_named.mp hgives)

/-! ## Lists -/

theorem alike_guarded {close : Char} (h : Alike cursor.Passes (p cursor) (q cursor)) :
    Alike cursor.Passes (guarded close p cursor) (guarded close q cursor) := by
  refine (alike_notFollowedBy rfl).bind fun _ middle hmiddle => ?_
  cases hmiddle
  exact h

theorem onward_closedBy {close : Char} {least : Nat} (h : AlikeBehind start p q) :
    Onward start (closedBy blank close least p) (closedBy blank close least q) := by
  have hitems : Onward start (manyAtLeast least (guarded close p))
      (manyAtLeast least (guarded close q)) := by
    intro cursor hcursor
    refine (alike_manyAtLeast least fun later hlater => ?_).imp fun _ => hcursor.of_reaches
    exact alike_guarded (h later (hcursor.of_reaches hlater))
  exact hitems.bind fun _ => onward_blank.bind fun _ => (onward_char close).bind fun _ =>
    onward_pure _

/-! ## The forms of a term -/

theorem alike_erasure (cursor : Cursor) :
    Alike cursor.Passes (erasure cursor) (erasure cursor) :=
  .named ((alike_char '*' cursor).bind fun _ => onward_pure _) _

theorem alike_lambda (h : AlikeBehind cursor inner inner') :
    Alike cursor.Passes (lambda blank inner cursor) (lambda blank inner' cursor) :=
  .named ((alike_char 'λ' cursor).bind fun _ => onward_blank.bind fun _ =>
    onward_name.bind fun _ => h.onward.bind fun _ => onward_pure _) _

theorem alike_operatorApplication (h : AlikeBehind cursor inner inner') :
    Alike cursor.Passes (operatorApplication blank inner cursor)
      (operatorApplication blank inner' cursor) :=
  .named ((alike_char '(' cursor).bind fun _ => onward_blank.bind fun _ =>
    onward_operator.bind fun _ => h.onward.bind fun _ => h.onward.bind fun _ =>
    onward_blank.bind fun _ => (onward_char ')').bind fun _ => onward_pure _) _

theorem alike_application (h : AlikeBehind cursor inner inner') :
    Alike cursor.Passes (application blank inner cursor) (application blank inner' cursor) :=
  .named ((alike_char '(' cursor).bind fun _ => h.onward.bind fun _ =>
    (onward_closedBy h).bind fun _ => onward_pure _) _

theorem alike_superposition (h : AlikeBehind cursor inner inner') :
    Alike cursor.Passes (superposition blank inner cursor) (superposition blank inner' cursor) :=
  .named ((alike_char '&' cursor).bind fun _ => onward_label.bind fun _ =>
    onward_blank.bind fun _ => (onward_char '{').bind fun _ => h.onward.bind fun _ =>
    h.onward.bind fun _ => onward_blank.bind fun _ => (onward_char '}').bind fun _ =>
    onward_pure _) _

theorem alike_duplication (h : AlikeBehind cursor inner inner') :
    Alike cursor.Passes (duplication blank inner cursor) (duplication blank inner' cursor) :=
  .named ((alike_char '!' cursor).bind fun _ => onward_blank.bind fun _ =>
    (onward_char '&').bind fun _ => onward_label.bind fun _ => onward_blank.bind fun _ =>
    (onward_char '{').bind fun _ => onward_blank.bind fun _ => onward_name.bind fun _ =>
    onward_blank.bind fun _ => onward_name.bind fun _ => onward_blank.bind fun _ =>
    (onward_char '}').bind fun _ => onward_blank.bind fun _ => (onward_char '=').bind fun _ =>
    h.onward.bind fun _ => h.onward.bind fun _ => onward_pure _) _

theorem alike_reference (cursor : Cursor) :
    Alike cursor.Passes (reference cursor) (reference cursor) :=
  .named ((alike_char '@' cursor).bind fun _ => onward_name.bind fun _ => onward_pure _) _

theorem alike_constructor (h : AlikeBehind cursor inner inner') :
    Alike cursor.Passes (constructor blank inner table cursor)
      (constructor blank inner' table cursor) :=
  .named ((alike_char '#' cursor).bind fun _ => onward_verify_constructorName.bind fun _ =>
    onward_blank.bind fun _ => (onward_char '{').bind fun _ => (onward_closedBy h).bind fun _ =>
    onward_pure _) _

/-- What begins with a character of its own behind the room takes some character. -/
theorem alike_behind_blank {next next' : Parser α}
    (h : ∀ middle, cursor.Reaches middle → Alike middle.Passes (next middle) (next' middle)) :
    Alike cursor.Passes ((do blank; next) cursor) ((do blank; next') cursor) :=
  (alike_blank cursor).bind fun _ middle hmiddle =>
    (h middle hmiddle).imp fun _ => hmiddle.passes

theorem alike_arm (h : AlikeBehind cursor inner inner') :
    Alike cursor.Passes (arm blank inner table cursor) (arm blank inner' table cursor) := by
  refine .named (alike_behind_blank fun middle hmiddle => ?_) _
  exact (alike_char '#' middle).bind fun _ => onward_verify_constructorName.bind fun _ =>
    onward_blank.bind fun _ => (onward_char ':').bind fun _ =>
    (h.of_reaches hmiddle).onward.bind fun _ => onward_pure _

theorem alike_matching (h : AlikeBehind cursor inner inner') :
    Alike cursor.Passes (matching blank inner table cursor)
      (matching blank inner' table cursor) := by
  have harms : AlikeBehind cursor (arm blank inner table) (arm blank inner' table) :=
    fun later hlater => alike_arm (h.of_reaches hlater.reaches)
  exact .named ((alike_char '~' cursor).bind fun _ => h.onward.bind fun _ =>
    onward_blank.bind fun _ => (onward_char '{').bind fun _ => (onward_closedBy harms).bind fun _ =>
    onward_pure _) _

theorem alike_atom (cursor : Cursor) : Alike cursor.Passes (atom cursor) (atom cursor) :=
  alike_verify fun _ _ hgives => (alike_name cursor).gives _ _ (gives_named.mp hgives)

/-- The alternatives are alike where terms are alike behind the first character. -/
theorem alike_alternatives (h : AlikeBehind cursor inner inner') :
    Alike cursor.Passes (choice (alternatives inner table) cursor)
      (choice (alternatives inner' table) cursor) :=
  .choice <| .cons (alike_erasure cursor) <| .cons (alike_lambda h) <|
    .cons (alike_operatorApplication h) <| .cons (alike_application h) <|
    .cons (alike_superposition h) <| .cons (alike_duplication h) <|
    .cons (alike_reference cursor) <| .cons (alike_constructor h) <| .cons (alike_matching h) <|
    .cons (alike_atom cursor) .nil

theorem alike_form (h : AlikeBehind cursor inner inner') :
    Alike cursor.Passes (form blank inner table cursor) (form blank inner' table cursor) :=
  alike_behind_blank fun _ hmiddle => alike_alternatives (h.of_reaches hmiddle)

/-! ## Terms -/

theorem alike_termUpTo (fuel : Nat) (cursor : Cursor) :
    Alike cursor.Passes (termUpTo blank table fuel cursor) (termUpTo blank table fuel cursor) := by
  induction fuel generalizing cursor with
  | zero => exact ⟨rfl, nofun⟩
  | succ fuel ih => exact alike_form fun later _ => ih later

theorem alike_term (cursor : Cursor) :
    Alike cursor.Passes (term table cursor) (term table cursor) :=
  alike_termUpTo _ cursor

/-- A term whose parts are nested less than `depth` deep.  What would be nested deeper is left to
another parser. -/
def termOver (deepest : Parser Tree) (table : ConstructorTable) : Nat → Parser Tree
  | 0 => deepest
  | depth + 1 => form blank (termOver deepest table depth) table

/-- With fuel, what would be nested too deep is refused. -/
theorem termUpTo_eq_termOver (fuel : Nat) :
    termUpTo blank table fuel = termOver fail table fuel := by
  induction fuel with
  | zero => rfl
  | succ fuel ih => rw [termUpTo, termOver, ih]

/-- What is left for the deepest terms is never started where the depth is more than there are
characters. -/
theorem alike_termOver {deepest deepest' : Parser Tree} {depth depth' : Nat}
    (hdepth : cursor.rest.length < depth) (hdepth' : cursor.rest.length < depth') :
    Alike cursor.Passes (termOver deepest table depth cursor)
      (termOver deepest' table depth' cursor) := by
  induction depth generalizing cursor depth' with
  | zero => exact absurd hdepth (Nat.not_lt_zero _)
  | succ depth ih =>
    obtain ⟨depth', rfl⟩ := Nat.exists_eq_add_one_of_ne_zero (Nat.ne_zero_of_lt hdepth')
    refine alike_form fun later hlater => ?_
    have hlt := hlater.length_lt
    exact ih (by omega) (by omega)

theorem termOver_eq_term {deepest : Parser Tree} {depth : Nat}
    (hdepth : cursor.rest.length < depth) :
    termOver deepest table depth cursor = term table cursor := by
  rw [term, termWith, termUpTo_eq_termOver]
  exact (alike_termOver hdepth (Nat.lt_succ_self _)).same

theorem termUpTo_eq_term {fuel : Nat} (hfuel : cursor.rest.length < fuel) :
    termUpTo blank table fuel cursor = term table cursor := by
  rw [termUpTo_eq_termOver]
  exact termOver_eq_term hfuel

/-- A term is one of the forms, with terms for its parts. -/
theorem form_term (cursor : Cursor) :
    form blank (term table) table cursor = term table cursor := by
  refine (alike_form fun later hlater => ?_).same
  rw [termUpTo_eq_term hlater.length_lt]
  exact alike_term later

/-! ## Terms inside a term -/

/-- To read a term at a cursor, one is started at an entry: what is answered there makes a
difference. -/
def Enters (table : ConstructorTable) (cursor entry : Cursor) : Prop :=
  ∃ other : Parser Tree, (∀ later, later ≠ entry → other later = term table later) ∧
    form blank other table cursor ≠ term table cursor

/-- The terms inside a term are started behind its first character. -/
theorem Enters.exists_passes {entry : Cursor} (h : Enters table cursor entry) :
    ∃ start, Gives blank cursor () start ∧ start.Passes entry := by
  obtain ⟨other, hother, hne⟩ := h
  obtain ⟨start, hstart⟩ := exists_gives_blank cursor
  refine ⟨start, hstart, ?_⟩
  by_contra hnot
  have hbehind : AlikeBehind start other (term table) := by
    intro later hlater
    rw [hother later fun heq => hnot (heq ▸ hlater)]
    exact alike_term later
  refine hne ?_
  rw [← form_term, form_eq, form_eq, bind_apply_of_some hstart, bind_apply_of_some hstart,
    (alike_alternatives hbehind).same]

theorem Enters.length_lt {entry : Cursor} (h : Enters table cursor entry) :
    entry.rest.length < cursor.rest.length := by
  obtain ⟨start, hstart, hpasses⟩ := h.exists_passes
  exact (((alike_blank cursor).gives _ _ hstart).passes hpasses).length_lt

/-- Terms nest at most as deep as there are characters. -/
theorem length_le_of_isChain_enters {entries : List Cursor}
    (h : List.IsChain (Enters table) (cursor :: entries)) :
    entries.length ≤ cursor.rest.length := by
  induction entries generalizing cursor with
  | nil => exact Nat.zero_le _
  | cons entry entries ih =>
    obtain ⟨henters, hothers⟩ := List.isChain_cons_cons.mp h
    have hlt := henters.length_lt
    have hle := ih hothers
    rw [List.length_cons]
    omega

/-- Where a match begins, no other alternative counts. -/
theorem fails_form_iff {rest : List Char} (hrest : cursor.rest = '~' :: rest) :
    Fails (form blank inner table) cursor ↔ Fails (matching blank inner table) cursor := by
  obtain ⟨offset, text⟩ := cursor
  cases hrest
  have hroom : Gives blank ⟨offset, '~' :: rest⟩ () ⟨offset, '~' :: rest⟩ := by
    have hfresh : Fresh ('~' :: rest) := ⟨by rintro c ⟨⟩; decide, by simp⟩
    obtain ⟨behind, hgives⟩ := reads_blank .nil hfresh offset
    have hreaches : Cursor.Reaches ⟨offset, [] ++ '~' :: rest⟩ ⟨behind, '~' :: rest⟩ :=
      (alike_blank _).gives _ _ hgives
    cases hreaches.eq_of_rest rfl
    exact hgives
  have hothers : ∀ q ∈ (alternatives inner table).take 8, Fails q ⟨offset, '~' :: rest⟩ :=
    fun q hq => refuses_alternatives 8 (by decide) (by decide) q hq offset
  have hatom : Fails atom ⟨offset, '~' :: rest⟩ :=
    refuses_atom (by rintro c ⟨⟩; decide) offset
  rw [Fails, form_eq, bind_apply_of_some hroom]
  refine fails_choice.trans ⟨fun h => h _ (by simp [alternatives]), fun h q hq => ?_⟩
  rcases List.mem_append.mp (show q ∈ (alternatives inner table).take 8 ++
    [matching blank inner table, atom] from hq) with hq | hq
  · exact hothers q hq
  · rcases List.mem_pair.mp hq with rfl | rfl
    · exact h
    · exact hatom

/-- The scrutinee of a match is a term inside it. -/
theorem enters_scrutinee {rest : List Char} (hrest : cursor.rest = '~' :: rest) :
    Enters table cursor (cursor.advance '~' rest) := by
  have hmark : Gives (char '~') cursor () (cursor.advance '~' rest) :=
    gives_char.mpr ⟨rest, hrest, rfl⟩
  by_cases hfails : Fails (term table) cursor
  · let other : Parser Tree := fun later =>
      if later = cursor.advance '~' rest then ⟨some (.era, ⟨0, ['{', '}']⟩), none⟩
      else term table later
    refine ⟨other, fun later hlater => if_neg hlater, fun heq => ?_⟩
    have hinner : Gives other (cursor.advance '~' rest) .era ⟨0, ['{', '}']⟩ := by
      simp only [Gives, other, if_pos]
    have hmatching : Gives (matching blank other table) cursor (.matching .era []) ⟨2, []⟩ :=
      gives_bind.mpr ⟨(), _, hmark, gives_bind.mpr ⟨_, _, hinner, rfl⟩⟩
    have hnot : Fails (form blank other table) cursor := by rwa [Fails, heq]
    exact hmatching.not_fails ((fails_form_iff hrest).mp hnot)
  · let other : Parser Tree := fun later =>
      if later = cursor.advance '~' rest then ⟨none, none⟩ else term table later
    refine ⟨other, fun later hlater => if_neg hlater, fun heq => hfails ?_⟩
    rw [Fails, ← heq]
    refine (fails_form_iff hrest).mpr ?_
    refine not_not.mp fun hgives => ?_
    obtain ⟨tree, behind, hgives⟩ := not_fails_iff.mp hgives
    obtain ⟨_, middle, hchar, hbody⟩ := gives_bind.mp (gives_named.mp hgives)
    cases (hchar.unique hmark).2
    obtain ⟨_, _, hinner, -⟩ := gives_bind.mp hbody
    simp [Gives, other] at hinner

/-- Terms may nest as deep as there are characters. -/
theorem exists_isChain_enters (table : ConstructorTable) (hrest : ∀ c ∈ cursor.rest, c = '~') :
    ∃ entries, List.IsChain (Enters table) (cursor :: entries) ∧
      entries.length = cursor.rest.length := by
  obtain ⟨offset, text⟩ := cursor
  induction text generalizing offset with
  | nil => exact ⟨[], .singleton _, rfl⟩
  | cons c text ih =>
    obtain ⟨rfl, htext⟩ := List.forall_mem_cons.mp hrest
    obtain ⟨entries, hchain, hlength⟩ := ih _ htext
    exact ⟨_ :: entries, .cons_cons (enters_scrutinee rfl) hchain, congrArg (· + 1) hlength⟩

/-! ## Blocks and definitions -/

theorem alike_field (cursor : Cursor) :
    Alike cursor.Passes (field blank cursor) (field blank cursor) :=
  alike_behind_blank fun middle _ => alike_name middle

theorem alike_constructorDeclaration (cursor : Cursor) :
    Alike cursor.Passes (constructorDeclaration blank cursor)
      (constructorDeclaration blank cursor) := by
  refine .named (alike_behind_blank fun middle _ => ?_) _
  have hfields : AlikeBehind middle (field blank) (field blank) := fun later _ => alike_field later
  exact (alike_char '#' middle).bind fun _ => onward_name.bind fun _ => onward_blank.bind fun _ =>
    (onward_char '{').bind fun _ => (onward_closedBy hfields).bind fun _ => onward_pure _

theorem alike_dataBlock (cursor : Cursor) :
    Alike cursor.Passes (dataBlock cursor) (dataBlock cursor) := by
  refine .named (alike_behind_blank fun middle _ => ?_) _
  have hdeclarations : AlikeBehind middle (constructorDeclaration blank)
      (constructorDeclaration blank) := fun later _ => alike_constructorDeclaration later
  exact (alike_chars_cons 'd' ['a', 't', 'a'] middle).bind fun _ => onward_blank.bind fun _ =>
    onward_name.bind fun _ => onward_blank.bind fun _ => (onward_char '{').bind fun _ =>
    (onward_closedBy hdeclarations).bind fun _ => onward_pure _

theorem alike_definition (cursor : Cursor) :
    Alike cursor.Passes (definition table cursor) (definition table cursor) := by
  refine .named (alike_behind_blank fun middle _ => ?_) _
  have hbody : Onward middle (term table) (term table) := onward_of_passes alike_term
  exact (alike_char '@' middle).bind fun _ => onward_name.bind fun _ => onward_blank.bind fun _ =>
    (onward_char '=').bind fun _ => hbody.bind fun _ => onward_pure _

/-! ## All repetitions -/

/-- The parsers that the rules of the grammar repeat. -/
inductive IsRepeated (table : ConstructorTable) : {α : Type} → Parser α → Prop where
  | room : IsRepeated table (whitespace <|> comment)
  | commentChar : IsRepeated table commentChar
  /-- The characters of names, and of names of constructors. -/
  | nameChar : IsRepeated table (satisfy isNameChar)
  /-- The digits of labels. -/
  | digit : IsRepeated table (named .digit (satisfy Char.isDigit))
  /-- The arguments of an application. -/
  | argument (fuel : Nat) : IsRepeated table (guarded ')' (termUpTo blank table fuel))
  /-- The fields of a constructor. -/
  | constructorField (fuel : Nat) : IsRepeated table (guarded '}' (termUpTo blank table fuel))
  | arm (fuel : Nat) :
    IsRepeated table (guarded '}' (arm blank (termUpTo blank table fuel) table))
  /-- The fields in the declaration of a constructor. -/
  | field : IsRepeated table (guarded '}' (field blank))
  | constructorDeclaration : IsRepeated table (guarded '}' (constructorDeclaration blank))
  | dataBlock : IsRepeated table dataBlock
  | definition : IsRepeated table (definition table)

theorem IsRepeated.progresses (h : IsRepeated table p) : Progresses p := by
  refine progresses_of_alike fun cursor => ?_
  cases h with
  | room => exact (alike_whitespace cursor).orElse (alike_comment cursor)
  | commentChar => exact alike_commentChar cursor
  | nameChar => exact alike_satisfy isNameChar cursor
  | digit => exact alike_digit cursor
  | argument fuel => exact alike_guarded (alike_termUpTo fuel cursor)
  | constructorField fuel => exact alike_guarded (alike_termUpTo fuel cursor)
  | arm fuel => exact alike_guarded (alike_arm fun later _ => alike_termUpTo fuel later)
  | field => exact alike_guarded (alike_field cursor)
  | constructorDeclaration => exact alike_guarded (alike_constructorDeclaration cursor)
  | dataBlock => exact alike_dataBlock cursor
  | definition => exact alike_definition cursor

/-- Parsing ends on every text, and as if nothing had been counted: each round of each repetition
takes some character, the terms inside a term are started behind its first character and nest at
most as deep as there are characters, as some do, and the reply is the same for all fuel that is
more than that. -/
theorem parsing_progresses (table : ConstructorTable) :
    (∀ (α : Type) (p : Parser α), IsRepeated table p → Progresses p) ∧
    (∀ cursor entry, Enters table cursor entry →
      ∃ start, Gives blank cursor () start ∧ start.Passes entry) ∧
    (∀ cursor entries, List.IsChain (Enters table) (cursor :: entries) →
      (cursor :: entries).length ≤ cursor.rest.length + 1) ∧
    (∀ cursor, (∀ c ∈ cursor.rest, c = '~') →
      ∃ entries, List.IsChain (Enters table) (cursor :: entries) ∧
        (cursor :: entries).length = cursor.rest.length + 1) ∧
    (∀ deepest depth cursor, cursor.rest.length < depth →
      termOver deepest table depth cursor = term table cursor) ∧
    (∀ fuel cursor, cursor.rest.length < fuel →
      termUpTo blank table fuel cursor = term table cursor) := by
  refine ⟨fun _ _ => IsRepeated.progresses, fun _ _ => Enters.exists_passes, ?_, ?_,
    fun _ _ _ => termOver_eq_term, fun _ _ => termUpTo_eq_term⟩
  · intro cursor entries hchain
    exact Nat.succ_le_succ (length_le_of_isChain_enters hchain)
  · intro cursor hrest
    obtain ⟨entries, hchain, hlength⟩ := exists_isChain_enters table hrest
    exact ⟨entries, hchain, congrArg (· + 1) hlength⟩

end InteractionGraph.Grammar
