import InteractionGraph.Proofs.Report.Room

/-!
# What tokens leave

There is no room inside a token, so its reader stands beside itself.  A token of letters or digits
goes on as far as they do and leaves what is missing there.  No mark is before that place, since
letters and digits are no marks, unless there are none: and then nothing behind the mark is such a
token (`IsMarked`).

A check may turn the whole token down.  This is right for the name of a constructor and for a label.
For a variable or an integer it is not, as other forms have been tried at the same place; what is
left of these is shown with the forms.
-/

namespace InteractionGraph.Grammar

open Parse Parser Text

variable {α β : Type} {text : List Char} {table : ConstructorTable} {place last : Place text}
  {post : Place text → Prop} {reply : Reply α} {p : Parser α} {accepts : Char → Bool}
  {letters : List Char} {expectation : Expectation}

/-! ## Letters and digits -/

/-- Letters are no marks. -/
theorem not_mark_of_isNameChar {c : Char} (h : isNameChar c = true) : c ≠ '#' ∧ c ≠ '&' := by
  constructor <;>
  · rintro rfl
    exact absurd h (by decide)

theorem not_mark_of_isDigit {c : Char} (h : c.isDigit = true) : c ≠ '#' ∧ c ≠ '&' :=
  not_mark_of_isNameChar (isNameChar_of_isDigit h)

/-- A reader that says what is missing behind a run of characters. -/
theorem parallel_of_run (hrun : IsRun accepts letters place last)
    (haccepts : ∀ c, accepts c = true → c ≠ '#' ∧ c ≠ '&')
    (hempty : letters = [] → ¬ IsMarked place)
    (hplain : expectation.isLayout = false ∧ expectation ≠ .character '/')
    (hreply : reply.alternative? = some ⟨last.nextSpan, .expected [expectation]⟩)
    (hgives : ∀ value behind, reply.result? = some (value, behind) → behind = last.cursor) :
    Parallel table place (fun stop => stop = last ∧ ¬ IsMarked last) reply reply := by
  have hle : place.offset ≤ last.offset := by
    rw [hrun.offset_eq]
    exact Nat.le_add_right _ _
  have hmarked : ¬ IsMarked last :=
    not_isMarked_behind hrun.before_eq hempty fun c hc => haccepts c (hrun.accepted c hc)
  refine parallel_self ?_ ?_ fun _ => by rw [hreply]; rfl
  · rw [hreply]
    rintro _ ⟨⟩
    exact leaves_of_single hplain hmarked hle
  · intro value behind hvalue
    exact ⟨last, hgives value behind hvalue, hle, rfl, hmarked⟩

/-- A name for a single thing that is missing, wherever that is. -/
theorem exists_reply_of_named (what : Construct) {result? : Option (α × Cursor)} {span : Span}
    (h : p place.cursor = ⟨result?, some ⟨span, .expected [expectation]⟩⟩)
    (hplain : expectation.isLayout = false ∧ expectation ≠ .character '/')
    (hwhat : what.isLayout = false) :
    ∃ listed, (listed.isLayout = false ∧ listed ≠ .character '/') ∧
      named what p place.cursor = ⟨result?, some ⟨span, .expected [listed]⟩⟩ := by
  by_cases hstart : span.start = place.offset
  · exact ⟨.construct what, ⟨hwhat, nofun⟩, named_of_start h hstart⟩
  · refine ⟨expectation, hplain, ?_⟩
    rw [named_apply, h]
    exact congrArg (fun renamed => (⟨result?, some renamed⟩ : Reply α)) (rename_of_ne hstart)

theorem TakesAt.manyAtLeast {p : Parser Char} {missed : Place text → Expectation}
    (h : TakesAt text p accepts missed) (place : Place text) :
    ∃ letters last, IsRun accepts letters place last ∧ manyAtLeast 1 p place.cursor =
      ⟨if letters = [] then none else some (letters, last.cursor),
        some ⟨last.nextSpan, .expected [missed last]⟩⟩ := by
  obtain ⟨letters, last, hrun, hmany⟩ := h.many place
  refine ⟨letters, last, hrun, ?_⟩
  rw [Parser.manyAtLeast, bind_apply_of_some (by rw [hmany]), hmany]
  cases letters with
  | nil => rfl
  | cons c letters => rfl

theorem exists_reply_of_name (place : Place text) :
    ∃ letters last expectation, IsRun isNameChar letters place last ∧
      (expectation.isLayout = false ∧ expectation ≠ .character '/') ∧
      name place.cursor =
        ⟨if letters = [] then none else some (String.ofList letters, last.cursor),
          some ⟨last.nextSpan, .expected [expectation]⟩⟩ := by
  obtain ⟨letters, last, hrun, hletters⟩ := (takesAt_satisfy isNameChar).manyAtLeast place
  have hreply : (do
      let letters ← manyAtLeast 1 (satisfy isNameChar)
      return String.ofList letters : Parser String) place.cursor =
      ⟨if letters = [] then none else some (String.ofList letters, last.cursor),
        some ⟨last.nextSpan, .expected [missing last]⟩⟩ := by
    cases letters with
    | nil => rw [bind_apply_of_none (by rw [hletters]; rfl), hletters]; rfl
    | cons c letters => rw [bind_apply_of_some (by rw [hletters]; rfl), hletters]; rfl
  obtain ⟨expectation, hplain, hnamed⟩ :=
    exists_reply_of_named .name hreply (missing_plain last) rfl
  exact ⟨letters, last, expectation, hrun, hplain, hnamed⟩

/-- A name may be read at any place. -/
theorem parallel_name (place : Place text) :
    Parallel table place (Onward place) (name place.cursor) (name place.cursor) := by
  obtain ⟨letters, last, expectation, hrun, hplain, hreply⟩ := exists_reply_of_name place
  have hparallel : Parallel table place (fun stop => stop = last ∧ ¬ IsMarked last)
      (name place.cursor) (name place.cursor) := by
    refine parallel_of_run hrun (fun _ => not_mark_of_isNameChar) ?_ hplain (by rw [hreply]) ?_
    · rintro rfl
      exact not_isMarked_of_stops (by rw [hrun.rest]; exact hrun.stops)
    · intro value behind hvalue
      rw [hreply] at hvalue
      split at hvalue <;> cases hvalue
      rfl
  by_cases hne : letters = []
  · rw [hreply, if_pos hne] at hparallel ⊢
    exact ⟨rfl, hparallel.leaves, hparallel.leaves_quiet, nofun, hparallel.fails⟩
  · refine hparallel.imp ?_
    rintro _ - ⟨rfl, hmarked⟩
    exact ⟨hrun.offset_lt hne, hmarked⟩

/-! ## Symbols -/

/-- Given characters are read up to the first that is missing. -/
theorem exists_reply_of_chars (cs : List Char) (place : Place text) :
    (∃ last : Place text, last.before = place.before ++ cs ∧
        chars cs place.cursor = ⟨some ((), last.cursor), none⟩) ∨
      ∃ (front : List Char) (c : Char) (back : List Char) (last : Place text),
        cs = front ++ c :: back ∧ last.before = place.before ++ front ∧
          chars cs place.cursor = ⟨none, some ⟨last.nextSpan, .expected [.character c]⟩⟩ := by
  induction cs generalizing place with
  | nil => exact .inl ⟨place, (List.append_nil _).symm, rfl⟩
  | cons c cs ih =>
    by_cases hmem : c ∈ place.rest.head?
    · obtain ⟨rest, hrest⟩ := List.head?_eq_some_iff.mp hmem
      have hchar := char_of_rest hrest
      have hreply : chars (c :: cs) place.cursor = chars cs place.next.cursor := by
        rw [chars, bind_apply_of_some (by rw [hchar]), hchar]
        rfl
      rw [hreply]
      rcases ih place.next with ⟨last, hlast, hread⟩ | ⟨front, d, back, last, rfl, hlast, hread⟩
      · refine .inl ⟨last, ?_, hread⟩
        rw [hlast, Place.before_next hrest, List.append_assoc]
        rfl
      · refine .inr ⟨c :: front, d, back, last, rfl, ?_, hread⟩
        rw [hlast, Place.before_next hrest, List.append_assoc]
        rfl
    · refine .inr ⟨[], c, cs, place, rfl, (List.append_nil _).symm, ?_⟩
      rw [chars, bind_apply_of_none (by rw [char_of_not_mem hmem]), char_of_not_mem hmem]

/-- A word that is made of letters may be read where no mark is before. -/
theorem parallel_chars (hletters : ∀ c ∈ letters, isNameChar c = true) (hne : letters ≠ [])
    (hmarked : ¬ IsMarked place) :
    Parallel table place (Onward place) (chars letters place.cursor)
      (chars letters place.cursor) := by
  rcases exists_reply_of_chars letters place with
    ⟨last, hlast, hreply⟩ | ⟨front, c, back, last, rfl, hlast, hreply⟩
  · rw [hreply]
    have hlt := Place.offset_lt_of_append hlast hne
    exact parallel_given () hlt.le ⟨hlt, not_isMarked_of_append hlast hne
      fun c hc => not_mark_of_isNameChar (hletters c hc)⟩
  · rw [hreply]
    have hoffset := Place.offset_of_append hlast
    have hmarked' : ¬ IsMarked last := not_isMarked_behind hlast (fun _ => hmarked)
      fun c hc => not_mark_of_isNameChar (hletters c (List.mem_append_left _ hc))
    have hplain : Expectation.character c ≠ .character '/' := by
      intro heq
      have hc := hletters c (by simp)
      rw [Expectation.character.inj heq] at hc
      exact absurd hc (by decide)
    exact parallel_refused (leaves_of_single ⟨rfl, hplain⟩ hmarked' (by omega))

/-- What is left where a symbol was looked for: something at the place, which the name of the
operator stands for, or something behind it. -/
def SymbolLeft (table : ConstructorTable) (place : Place text) (alternative : Alternative) : Prop :=
  (∃ expectations, alternative = ⟨place.nextSpan, .expected expectations⟩) ∨
    place.offset < alternative.span.start ∧ Leaves table place alternative ∧ Plain alternative

theorem SymbolLeft.farther {alternative another : Alternative}
    (h : SymbolLeft table place alternative) (h' : SymbolLeft table place another) :
    SymbolLeft table place (alternative.farther another) := by
  rcases h with ⟨expectations, rfl⟩ | ⟨hlt, hleaves, hplain⟩
  · rcases h' with ⟨others, rfl⟩ | ⟨hlt', hleaves', hplain'⟩
    · exact .inl ⟨unite expectations others, Alternative.mk_farther_mk _ _ _⟩
    · rw [Alternative.farther_of_lt hlt']
      exact .inr ⟨hlt', hleaves', hplain'⟩
  · rcases h' with ⟨others, rfl⟩ | ⟨hlt', hleaves', hplain'⟩
    · rw [Alternative.farther_of_gt hlt]
      exact .inr ⟨hlt, hleaves, hplain⟩
    · refine .inr ⟨?_, hleaves.farther hleaves', hplain.farther hplain'⟩
      rw [Alternative.start_farther]
      exact hlt.trans_le (le_max_left _ _)

theorem not_mark_of_mem_dropLast (op : Operator) :
    ∀ c ∈ op.symbol.toList.dropLast, c ≠ '#' ∧ c ≠ '&' := by
  cases op <;> decide

/-- The parser reads some symbol, or leaves something of it. -/
def ReadsSymbol (table : ConstructorTable) (place : Place text) (p : Parser α) : Prop :=
  (∃ (value : α) (last : Place text), place.offset < last.offset ∧
      p place.cursor = ⟨some (value, last.cursor), none⟩) ∨
    ∃ alternative, SymbolLeft table place alternative ∧ p place.cursor = ⟨none, some alternative⟩

/-- A symbol of two characters may be missing the second one. -/
theorem readsSymbol (op : Operator) (place : Place text) :
    ReadsSymbol table place (do chars op.symbol.toList; return op) := by
  rcases exists_reply_of_chars op.symbol.toList place with
    ⟨last, hlast, hreply⟩ | ⟨front, c, back, last, hsymbol, hlast, hreply⟩
  · refine .inl ⟨op, last, ?_, ?_⟩
    · exact Place.offset_lt_of_append hlast (symbol_ne_nil op)
    · rw [bind_apply_of_some (by rw [hreply]), hreply]
      rfl
  · refine .inr ⟨_, ?_, by rw [bind_apply_of_none (by rw [hreply]), hreply]⟩
    by_cases hfront : front = []
    · have hsame : last = place := Place.eq_of_append_nil (hfront ▸ hlast)
      exact .inl ⟨_, by rw [hsame]⟩
    · have hlt := Place.offset_lt_of_append hlast hfront
      have hmarked : ¬ IsMarked last := by
        refine not_isMarked_of_append hlast hfront fun d hd => not_mark_of_mem_dropLast op d ?_
        rw [hsymbol, List.dropLast_append_of_ne_nil (List.cons_ne_nil _ _)]
        exact List.mem_append_left _ hd
      have hc : c ∈ op.symbol.toList.tail := by
        rw [hsymbol, List.tail_append_of_ne_nil hfront]
        exact List.mem_append_right _ List.mem_cons_self
      have hplain : Expectation.character c ≠ .character '/' := by
        intro heq
        have hchar := mem_tail_symbol hc
        rw [Expectation.character.inj heq] at hchar
        exact absurd hchar (by decide)
      exact .inr ⟨hlt, leaves_of_single ⟨rfl, hplain⟩ hmarked hlt.le⟩

theorem reply_of_choice {parsers : List (Parser α)}
    (h : ∀ p ∈ parsers, ReadsSymbol table place p) (hne : parsers ≠ []) :
    (∀ alternative ∈ (choice parsers place.cursor).alternative?,
        SymbolLeft table place alternative) ∧
      (∀ value behind, (choice parsers place.cursor).result? = some (value, behind) →
        ∃ last : Place text, behind = last.cursor ∧ place.offset < last.offset) ∧
      ((choice parsers place.cursor).result? = none →
        (choice parsers place.cursor).alternative?.isSome = true) := by
  induction parsers with
  | nil => exact absurd rfl hne
  | cons p parsers ih =>
    obtain ⟨hfirst, hothers⟩ := List.forall_mem_cons.mp h
    rcases hfirst with ⟨value, last, hlt, hread⟩ | ⟨alternative, hsymbol, hread⟩
    · rw [choice, orElse_apply_of_some (by rw [hread]), hread]
      refine ⟨nofun, ?_, nofun⟩
      rintro _ _ ⟨⟩
      exact ⟨last, rfl, hlt⟩
    · by_cases hnil : parsers = []
      · rw [hnil, choice_singleton, hread]
        refine ⟨?_, nofun, fun _ => rfl⟩
        rintro _ ⟨⟩
        exact hsymbol
      · obtain ⟨hleft, hgives, hsome⟩ := ih hothers hnil
        rw [choice, orElse_apply_of_none (by rw [hread]), hread]
        refine ⟨forall_mem_farther (fun _ _ => SymbolLeft.farther) ?_ hleft, hgives, fun hnone => ?_⟩
        · rintro _ ⟨⟩
          exact hsymbol
        · obtain ⟨another, hanother⟩ := Option.isSome_iff_exists.mp (hsome hnone)
          rw [hanother]
          rfl

theorem parallel_operator (hmarked : ¬ IsMarked place) :
    Parallel table place (fun last => place.offset < last.offset) (operator place.cursor)
      (operator place.cursor) := by
  have hsymbols : ∀ p ∈ operators.map (fun op => do chars op.symbol.toList; return op),
      ReadsSymbol table place p := by
    intro p hmem
    obtain ⟨op, -, rfl⟩ := List.mem_map.mp hmem
    exact readsSymbol op place
  obtain ⟨hleft, hgives, hsome⟩ := reply_of_choice hsymbols (by decide)
  rw [operator, named_apply]
  refine parallel_self ?_ ?_ ?_
  · intro renamed hrenamed
    obtain ⟨alternative, hmem, rfl⟩ := Option.map_eq_some_iff.mp hrenamed
    rcases hleft alternative hmem with ⟨expectations, rfl⟩ | ⟨hlt, hleaves, hplain⟩
    · rw [rename_of_eq (show place.nextSpan.start = place.offset from rfl)]
      exact leaves_of_single ⟨rfl, nofun⟩ hmarked le_rfl
    · rw [rename_of_ne hlt.ne']
      exact ⟨hleaves, hplain⟩
  · intro value behind hvalue
    obtain ⟨last, hlast, hlt⟩ := hgives value behind hvalue
    exact ⟨last, hlast, hlt.le, hlt⟩
  · intro hnone
    rw [Option.isSome_map]
    exact hsome hnone

/-! ## Tokens that are checked -/

/-- A token may be turned down where its mark stands. -/
theorem Parallel.verify {check : α → Except Rejection β}
    (h : Parallel table place post (p place.cursor) (p place.cursor))
    (hcheck : ∀ value (last : Place text) rejection, Gives p place.cursor value last.cursor →
      check value = .error rejection → Rejects table place last rejection) :
    Parallel table place post (verify p check place.cursor) (verify p check place.cursor) := by
  cases hresult : (p place.cursor).result? with
  | none =>
    have hreply : Parser.verify p check place.cursor = ⟨none, (p place.cursor).alternative?⟩ := by
      simp only [Parser.verify, hresult]
    rw [hreply]
    refine ⟨rfl, h.leaves, h.leaves_quiet, ?_, fun _ => h.fails hresult⟩
    rintro _ _ ⟨⟩
  | some reading =>
    obtain ⟨value, behind⟩ := reading
    obtain ⟨last, rfl, hle, hpost, hsettled⟩ := h.gives value behind hresult
    cases hvalue : check value with
    | ok result =>
      have hreply : Parser.verify p check place.cursor =
          ⟨some (result, last.cursor), (p place.cursor).alternative?⟩ := by
        simp only [Parser.verify, hresult, hvalue]
      rw [hreply]
      refine ⟨rfl, h.leaves, h.leaves_quiet, ?_, ?_⟩
      · rintro _ _ ⟨⟩
        exact ⟨last, rfl, hle, hpost, hsettled⟩
      · rintro ⟨⟩
    | error rejection =>
      have hreply : Parser.verify p check place.cursor =
          ⟨none, some ⟨⟨place.offset, last.offset⟩, .rejected rejection⟩⟩ := by
        simp only [Parser.verify, hresult, hvalue]
        rfl
      rw [hreply]
      exact parallel_refused
        (leaves_of_rejected hle (hcheck value last rejection hresult hvalue))

theorem rejects_label {digits : List Char} {rejection : Rejection} (hmark : place.Follows '&')
    (hgives : Gives (named .label (manyAtLeast 1 (named .digit (satisfy Char.isDigit))))
      place.cursor digits last.cursor) (h : labelOfDigits digits = .error rejection) :
    Rejects table place last rejection := by
  obtain ⟨hmany, hleast⟩ := gives_manyAtLeast.mp (gives_named.mp hgives)
  obtain ⟨hrest, hall, hstops⟩ := ((takes_satisfy Char.isDigit).named .digit).gives_many hmany
  have htoken : IsToken Char.isDigit digits place last :=
    ⟨⟨hall, hrest, hstops⟩, List.length_pos_iff.mp hleast⟩
  unfold labelOfDigits at h
  split at h
  · cases h
  · rename_i hword
    cases h
    rw [Rejects, String.toList_ofList]
    exact ⟨hmark, htoken, hword⟩

theorem parallel_label (hmark : place.Follows '&') :
    Parallel table place (fun last => ¬ IsMarked last) (label place.cursor) (label place.cursor) := by
  refine Parallel.verify ?_ fun digits last rejection => rejects_label hmark
  obtain ⟨digits, last, hrun, hdigits⟩ :=
    ((takesAt_satisfy Char.isDigit).named .digit).manyAtLeast place
  obtain ⟨expectation, hplain, hreply⟩ := exists_reply_of_named .label hdigits ⟨rfl, nofun⟩ rfl
  refine (parallel_of_run hrun (fun _ => not_mark_of_isDigit) ?_ hplain (by rw [hreply]) ?_).imp
    fun _ _ h => h.1 ▸ h.2
  · rintro rfl (⟨hhash, -⟩ | ⟨-, hdigit⟩)
    · exact absurd (hmark.unique hhash) (by decide)
    · exact hdigit (by rw [hrun.rest]; exact hrun.stops)
  · intro value behind hvalue
    rw [hreply] at hvalue
    split at hvalue <;> cases hvalue
    rfl

/-- A constructor without a name stands for a number. -/
theorem resolve_of_isEmpty {name : String} (h : name.isEmpty = true) :
    table.resolve name ≠ none := by
  rw [ConstructorTable.resolve]
  split
  · exact Option.some_ne_none _
  · rw [if_pos h]
    exact Option.some_ne_none _

/-- A check of the names of constructors. -/
theorem parallel_constructorName {check : List Char → Except Rejection UInt32}
    (hmark : place.Follows '#')
    (hcheck : ∀ letters rejection, check letters = .error rejection →
      resolveName table letters = .error rejection) :
    Parallel table place (fun last => ¬ IsMarked last)
      (verify constructorName check place.cursor) (verify constructorName check place.cursor) := by
  refine Parallel.verify ?_ fun letters last rejection hgives hrejection => ?_
  · obtain ⟨letters, last, hrun, hletters⟩ := (takesAt_satisfy isNameChar).many place
    obtain ⟨expectation, hplain, hreply⟩ :=
      exists_reply_of_named .constructorName hletters (missing_plain last) rfl
    refine (parallel_of_run hrun (fun _ => not_mark_of_isNameChar) ?_ hplain
      (by rw [constructorName, hreply]) ?_).imp fun _ _ h => h.1 ▸ h.2
    · rintro rfl
      exact not_isMarked_of_stops (by rw [hrun.rest]; exact hrun.stops)
    · intro value behind hvalue
      rw [constructorName, hreply] at hvalue
      cases hvalue
      rfl
  · obtain ⟨hrest, hall, hstops⟩ := (takes_satisfy isNameChar).gives_many (gives_named.mp hgives)
    have hresolve := hcheck letters rejection hrejection
    simp only [resolveName] at hresolve
    split at hresolve
    · cases hresolve
    · rename_i hnone
      cases hresolve
      have hne : letters ≠ [] := by
        rintro rfl
        exact resolve_of_isEmpty rfl hnone
      rw [Rejects, String.toList_ofList]
      exact ⟨hmark, ⟨⟨hall, hrest, hstops⟩, hne⟩, hnone⟩

theorem parallel_constructorId (hmark : place.Follows '#') :
    Parallel table place (fun last => ¬ IsMarked last) (constructorId table place.cursor)
      (constructorId table place.cursor) :=
  parallel_constructorName hmark fun _ _ => id

theorem parallel_armId (hmark : place.Follows '#') :
    Parallel table place (fun last => ¬ IsMarked last) (armId table place.cursor)
      (armId table place.cursor) := by
  refine parallel_constructorName hmark fun letters rejection h => ?_
  unfold resolveArmName at h
  split at h
  · cases h
  · exact h

end InteractionGraph.Grammar
