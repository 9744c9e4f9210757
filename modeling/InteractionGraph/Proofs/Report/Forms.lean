import InteractionGraph.Grammar.Book
import InteractionGraph.Proofs.Report.Tokens

/-!
# What the rules of the grammar leave

Each rule, read with room that leaves something, stands beside itself with room that leaves nothing.
For all of them but one this is shown by going through the rule.  A rule is entered where no mark is
before, and each of its parts stops at such a place.

The exception is a term that is written directly behind the operator `&`, such as `5` in `(&5 x)`.
There digits stand behind a mark, and what is listed there gives no account of them.  But a term
that begins with a letter or a digit is a variable or an integer: it is read, and then its end is
farther, or it is an integer that is turned down, and then nothing is listed (`exists_reply_of_atom`).
-/

namespace InteractionGraph.Grammar

open Parse Parser Text

variable {α : Type} {text : List Char} {table : ConstructorTable} {place : Place text}
  {inner inner' : Parser Tree}

/-- From a place on, two readers stand beside each other. -/
def Beside (table : ConstructorTable) (place : Place text) (p q : Parser α) : Prop :=
  ∀ here : Place text, place.offset < here.offset →
    Parallel table here (Onward here) (p here.cursor) (q here.cursor)

/-! ## Lists -/

theorem parallel_closedBy {item item' : Parser α} (close : Char) (least : Nat)
    (hclose : close ≠ '#' ∧ close ≠ '&' ∧ close ≠ '/') (hmarked : ¬ IsMarked place)
    (hitem : ∀ here : Place text, place.offset ≤ here.offset → ¬ IsMarked here →
      Parallel table here (Onward here) (item here.cursor) (item' here.cursor)) :
    Parallel table place (Onward place) (closedBy blank close least item place.cursor)
      (closedBy (quietly blank) close least item' place.cursor) := by
  have hitems : Parallel table place (fun last => ¬ IsMarked last)
      (manyAtLeast least (do notFollowedBy (do blank; char close); item) place.cursor)
      (manyAtLeast least (do notFollowedBy (do quietly blank; char close); item') place.cursor) := by
    refine parallel_manyAtLeast least hmarked fun here hhere hmarked => ?_
    have hclosed : Parallel table here (fun last => Fresh here.rest → last = here.next)
        ((do blank; char close : Parser Unit) here.cursor)
        ((do quietly blank; char close : Parser Unit) here.cursor) := by
      refine (parallel_blank hmarked).bind fun _ start _ hstart => ?_
      refine (parallel_char hclose.2.2 hstart.1).imp fun last _ hlast hfresh => ?_
      rw [hlast.1, hstart.2.2 hfresh]
    refine (parallel_notFollowedBy hmarked hclosed.same fun value behind hgives => ?_).bind ?_
    · obtain ⟨last, hlast, hle, hnext, -⟩ := hclosed.gives value behind hgives
      exact ⟨last, hlast, hle, hnext⟩
    · rintro _ _ - rfl
      exact (hitem _ hhere hmarked).imp fun _ _ hlast => ⟨hlast.lt, hlast.not_isMarked⟩
  refine hitems.bind fun items stop hstop hmarked => ?_
  refine (parallel_blank hmarked).bind fun _ start hstart hroom => ?_
  refine (parallel_symbol hclose hroom.1).bind fun _ last _ hlast => ?_
  exact parallel_pure items (hlast.of_le (hstop.trans hstart))

/-! ## Forms that a character begins -/

theorem parallel_erasure (hmarked : ¬ IsMarked place) :
    Parallel table place (Onward place) (erasure place.cursor) (erasure place.cursor) := by
  refine Parallel.named ?_ rfl hmarked fun _ => Onward.lt
  refine (parallel_symbol (by decide) hmarked).bind fun _ last _ hlast => ?_
  exact parallel_pure _ hlast

theorem parallel_reference (hmarked : ¬ IsMarked place) :
    Parallel table place (Onward place) (reference place.cursor) (reference place.cursor) := by
  refine Parallel.named ?_ rfl hmarked fun _ => Onward.lt
  refine (parallel_symbol (by decide) hmarked).bind fun _ start hstart _ => ?_
  refine (parallel_name start).bind fun _ last _ hlast => ?_
  exact parallel_pure _ (hlast.of_le hstart)

theorem parallel_lambda (hinner : Beside table place inner inner') (hmarked : ¬ IsMarked place) :
    Parallel table place (Onward place) (lambda blank inner place.cursor)
      (lambda (quietly blank) inner' place.cursor) := by
  refine Parallel.named ?_ rfl hmarked fun _ => Onward.lt
  refine (parallel_symbol (by decide) hmarked).bind fun _ head _ hhead => ?_
  refine (parallel_blank hhead.not_isMarked).bind fun _ start hstart _ => ?_
  refine (parallel_name start).bind fun _ stop hstop _ => ?_
  have hlt := hhead.lt
  refine (hinner stop (by omega)).bind fun _ last _ hlast => ?_
  exact parallel_pure _ (hlast.of_le (by omega))

theorem parallel_superposition (hinner : Beside table place inner inner')
    (hmarked : ¬ IsMarked place) :
    Parallel table place (Onward place) (superposition blank inner place.cursor)
      (superposition (quietly blank) inner' place.cursor) := by
  refine Parallel.named ?_ rfl hmarked fun _ => Onward.lt
  refine (parallel_char (by decide) hmarked).bind fun _ mark _ hmark => ?_
  refine (parallel_label hmark.2.2).bind fun _ label hlabel hmarked => ?_
  refine (parallel_blank hmarked).bind fun _ start hstart hroom => ?_
  refine (parallel_symbol (by decide) hroom.1).bind fun _ opened hopened _ => ?_
  have hlt := hmark.2.1
  refine (hinner opened (by omega)).bind fun _ left hleft _ => ?_
  refine (hinner left (by omega)).bind fun _ right hright hmarked => ?_
  refine (parallel_blank hmarked.not_isMarked).bind fun _ start hstart hroom => ?_
  refine (parallel_symbol (by decide) hroom.1).bind fun _ last _ hlast => ?_
  exact parallel_pure _ (hlast.of_le (by omega))

theorem parallel_operatorApplication (hinner : Beside table place inner inner')
    (hmarked : ¬ IsMarked place) :
    Parallel table place (Onward place) (operatorApplication blank inner place.cursor)
      (operatorApplication (quietly blank) inner' place.cursor) := by
  refine Parallel.named ?_ rfl hmarked fun _ => Onward.lt
  refine (parallel_symbol (by decide) hmarked).bind fun _ head _ hhead => ?_
  refine (parallel_blank hhead.not_isMarked).bind fun _ start hstart hroom => ?_
  -- The operator `&` is a mark, so nothing is said of the place behind it.
  refine (parallel_operator hroom.1).bind fun _ stop hstop _ => ?_
  have hlt := hhead.lt
  refine (hinner stop (by omega)).bind fun _ left hleft _ => ?_
  refine (hinner left (by omega)).bind fun _ right hright hmarked => ?_
  refine (parallel_blank hmarked.not_isMarked).bind fun _ start hstart hroom => ?_
  refine (parallel_symbol (by decide) hroom.1).bind fun _ last _ hlast => ?_
  exact parallel_pure _ (hlast.of_le (by omega))

theorem parallel_application (hinner : Beside table place inner inner')
    (hmarked : ¬ IsMarked place) :
    Parallel table place (Onward place) (application blank inner place.cursor)
      (application (quietly blank) inner' place.cursor) := by
  refine Parallel.named ?_ rfl hmarked fun _ => Onward.lt
  refine (parallel_symbol (by decide) hmarked).bind fun _ head _ hhead => ?_
  have hlt := hhead.lt
  refine (hinner head (by omega)).bind fun _ stop hstop hmarked => ?_
  refine (parallel_closedBy ')' 1 (by decide) hmarked.not_isMarked
    fun here hhere _ => hinner here (by omega)).bind fun _ last _ hlast => ?_
  exact parallel_pure _ (hlast.of_le (by omega))

theorem parallel_duplication (hinner : Beside table place inner inner')
    (hmarked : ¬ IsMarked place) :
    Parallel table place (Onward place) (duplication blank inner place.cursor)
      (duplication (quietly blank) inner' place.cursor) := by
  refine Parallel.named ?_ rfl hmarked fun _ => Onward.lt
  refine (parallel_symbol (by decide) hmarked).bind fun _ head _ hhead => ?_
  have hlt := hhead.lt
  refine (parallel_blank hhead.not_isMarked).bind fun _ start hstart hroom => ?_
  refine (parallel_char (by decide) hroom.1).bind fun _ mark _ hmark => ?_
  refine (parallel_label hmark.2.2).bind fun _ label hlabel hmarked => ?_
  refine (parallel_blank hmarked).bind fun _ start hstart hroom => ?_
  refine (parallel_symbol (by decide) hroom.1).bind fun _ opened hopened hmarked => ?_
  refine (parallel_blank hmarked.not_isMarked).bind fun _ start hstart _ => ?_
  refine (parallel_name start).bind fun _ first hfirst hmarked => ?_
  refine (parallel_blank hmarked.not_isMarked).bind fun _ start hstart _ => ?_
  refine (parallel_name start).bind fun _ second hsecond hmarked => ?_
  refine (parallel_blank hmarked.not_isMarked).bind fun _ start hstart hroom => ?_
  refine (parallel_symbol (by decide) hroom.1).bind fun _ closed hclosed hmarked => ?_
  refine (parallel_blank hmarked.not_isMarked).bind fun _ start hstart hroom => ?_
  refine (parallel_symbol (by decide) hroom.1).bind fun _ equals hequals _ => ?_
  refine (hinner equals (by omega)).bind fun _ value hvalue _ => ?_
  refine (hinner value (by omega)).bind fun _ last _ hlast => ?_
  exact parallel_pure _ (hlast.of_le (by omega))

theorem parallel_constructor (hinner : Beside table place inner inner')
    (hmarked : ¬ IsMarked place) :
    Parallel table place (Onward place) (constructor blank inner table place.cursor)
      (constructor (quietly blank) inner' table place.cursor) := by
  refine Parallel.named ?_ rfl hmarked fun _ => Onward.lt
  refine (parallel_char (by decide) hmarked).bind fun _ mark _ hmark => ?_
  have hlt := hmark.2.1
  refine (parallel_constructorId hmark.2.2).bind fun _ stop hstop hmarked => ?_
  refine (parallel_blank hmarked).bind fun _ start hstart hroom => ?_
  refine (parallel_symbol (by decide) hroom.1).bind fun _ opened hopened hmarked => ?_
  refine (parallel_closedBy '}' 0 (by decide) hmarked.not_isMarked
    fun here hhere _ => hinner here (by omega)).bind fun _ last _ hlast => ?_
  exact parallel_pure _ (hlast.of_le (by omega))

theorem parallel_arm (hinner : Beside table place inner inner') (hmarked : ¬ IsMarked place) :
    Parallel table place (Onward place) (arm blank inner table place.cursor)
      (arm (quietly blank) inner' table place.cursor) := by
  refine Parallel.named ?_ rfl hmarked fun _ => Onward.lt
  refine (parallel_blank hmarked).bind fun _ start hstart hroom => ?_
  refine (parallel_char (by decide) hroom.1).bind fun _ mark _ hmark => ?_
  have hlt := hmark.2.1
  refine (parallel_armId hmark.2.2).bind fun _ stop hstop hmarked => ?_
  refine (parallel_blank hmarked).bind fun _ start hstart hroom => ?_
  refine (parallel_symbol (by decide) hroom.1).bind fun _ colon hcolon _ => ?_
  refine (hinner colon (by omega)).bind fun _ last _ hlast => ?_
  exact parallel_pure _ (hlast.of_le (by omega))

theorem parallel_matching (hinner : Beside table place inner inner') (hmarked : ¬ IsMarked place) :
    Parallel table place (Onward place) (matching blank inner table place.cursor)
      (matching (quietly blank) inner' table place.cursor) := by
  refine Parallel.named ?_ rfl hmarked fun _ => Onward.lt
  refine (parallel_symbol (by decide) hmarked).bind fun _ head _ hhead => ?_
  have hlt := hhead.lt
  refine (hinner head (by omega)).bind fun _ stop hstop hmarked => ?_
  refine (parallel_blank hmarked.not_isMarked).bind fun _ start hstart hroom => ?_
  refine (parallel_symbol (by decide) hroom.1).bind fun _ opened hopened hmarked => ?_
  refine (parallel_closedBy '}' 0 (by decide) hmarked.not_isMarked fun here hhere hmarked =>
    parallel_arm (fun other hother => hinner other (by omega)) hmarked).bind
    fun _ last _ hlast => ?_
  exact parallel_pure _ (hlast.of_le (by omega))

/-! ## Variables and integers -/

theorem rejects_integer {name : String} {rejection : Rejection} {behind : Place text}
    (htoken : IsToken isNameChar name.toList place behind)
    (h : atomOfName name = .error rejection) : Rejects table place place.next rejection := by
  unfold atomOfName at h
  split at h
  · rename_i hdigits
    split at h
    · cases h
    · rename_i hword
      cases h
      exact ⟨rfl, ⟨behind, htoken⟩, List.all_eq_true.mp hdigits, hword⟩
  · cases h

/-- Where a letter or a digit stands, a variable or an integer is read, or an integer is turned
down. -/
theorem exists_reply_of_atom (table : ConstructorTable)
    (hletter : ¬ Stops isNameChar place.rest) :
    (∃ tree last alternative, Onward place last ∧ place.offset < alternative.span.start ∧
        Leaves table place alternative ∧ Plain alternative ∧
        atom place.cursor = ⟨some (tree, last.cursor), some alternative⟩) ∨
      ∃ span rejection, span.start = place.offset ∧ Rejects table place place.next rejection ∧
        atom place.cursor = ⟨none, some ⟨span, .rejected rejection⟩⟩ := by
  obtain ⟨letters, last, expectation, hrun, hplain, hname⟩ := exists_reply_of_name place
  have hne : letters ≠ [] := by
    rintro rfl
    exact hletter (by rw [hrun.rest]; exact hrun.stops)
  rw [if_neg hne] at hname
  obtain ⟨listed, hlisted, hreply⟩ := exists_reply_of_named .occurrence hname hplain rfl
  have hlt := hrun.offset_lt hne
  have hmarked : ¬ IsMarked last := not_isMarked_of_append hrun.before_eq hne
    fun c hc => not_mark_of_isNameChar (hrun.accepted c hc)
  cases hvalue : atomOfName (String.ofList letters) with
  | ok tree =>
    obtain ⟨hleaves, hplain⟩ := leaves_of_single hlisted hmarked hlt.le
    refine .inl ⟨tree, last, _, ⟨hlt, hmarked⟩, hlt, hleaves, hplain, ?_⟩
    simp only [atom, verify, hreply, hvalue]
  | error rejection =>
    have htoken : IsToken isNameChar (String.ofList letters).toList place last := by
      rw [String.toList_ofList]
      exact ⟨hrun, hne⟩
    refine .inr ⟨⟨place.offset, last.offset⟩, rejection, rfl, rejects_integer htoken hvalue, ?_⟩
    simp only [atom, verify, hreply, hvalue]
    rfl

/-- Where no letter stands, there is no variable and no integer. -/
theorem parallel_atom (hstops : Stops isNameChar place.rest) :
    Parallel table place (Onward place) (atom place.cursor) (atom place.cursor) := by
  have hname : Parallel table place (Onward place) (named .occurrence name place.cursor)
      (named .occurrence name place.cursor) :=
    (parallel_name place).named rfl (not_isMarked_of_stops hstops) fun _ => Onward.lt
  refine hname.verify fun letters last _ hgives => ?_
  obtain ⟨hletters, hrest, -⟩ := gives_name (gives_named.mp hgives)
  obtain ⟨c, others, hcons⟩ := List.exists_cons_of_ne_nil hletters.1
  have hc := hstops c (by
    rw [show place.rest = place.cursor.rest from rfl, hrest, hcons]
    rfl)
  rw [hletters.2 c (by rw [hcons]; exact List.mem_cons_self)] at hc
  cases hc

/-! ## All forms -/

/-- The forms that a character begins which is no letter. -/
def markedForms (room : Parser Unit) (inner : Parser Tree) (table : ConstructorTable) :
    List (Parser Tree) :=
  [erasure, lambda room inner, operatorApplication room inner, application room inner,
    superposition room inner, duplication room inner, reference, constructor room inner table,
    matching room inner table]

theorem form_eq_bind (room : Parser Unit) :
    form room inner table = room >>= fun _ => choice (markedForms room inner table ++ [atom]) :=
  rfl

/-- The forms that another character begins have all listed something at the place. -/
theorem exists_reply_of_choice {q : Parser α} {parsers : List (Parser α)}
    (h : ∀ p ∈ parsers, ∃ expectations,
      p place.cursor = ⟨none, some ⟨place.nextSpan, .expected expectations⟩⟩)
    (hne : parsers ≠ []) :
    ∃ expectations, choice (parsers ++ [q]) place.cursor = ⟨(q place.cursor).result?,
      farther (some ⟨place.nextSpan, .expected expectations⟩) (q place.cursor).alternative?⟩ := by
  induction parsers with
  | nil => exact absurd rfl hne
  | cons p parsers ih =>
    obtain ⟨⟨expectations, hfirst⟩, hothers⟩ := List.forall_mem_cons.mp h
    rw [List.cons_append, choice, orElse_apply_of_none (by rw [hfirst]), hfirst]
    by_cases hnil : parsers = []
    · rw [hnil, List.nil_append, choice_singleton]
      exact ⟨expectations, rfl⟩
    · obtain ⟨others, hreply⟩ := ih hothers hnil
      refine ⟨unite expectations others, ?_⟩
      rw [hreply, ← farther_assoc, some_farther_some, Alternative.mk_farther_mk]
      rfl

theorem reply_of_other {what : Construct} {wanted : Char} {next : Unit → Parser α}
    (h : wanted ∉ place.rest.head?) :
    ∃ expectations, named what (char wanted >>= next) place.cursor =
      ⟨none, some ⟨place.nextSpan, .expected expectations⟩⟩ := by
  have hchar := char_of_not_mem h
  exact ⟨_, named_of_start (by rw [bind_apply_of_none (by rw [hchar]), hchar]) rfl⟩

/-- What a reader leaves that comes to more than any list at the place where it starts. -/
def Outdoes (place : Place text) (alternative : Alternative) : Prop :=
  place.offset < alternative.span.start ∨
    ∃ rejection, alternative = ⟨place.nextSpan, .rejected rejection⟩

theorem Outdoes.farther_eq {alternative : Alternative} (h : Outdoes place alternative)
    (expectations : List Expectation) :
    Alternative.farther ⟨place.nextSpan, .expected expectations⟩ alternative = alternative := by
  rcases h with hlt | ⟨rejection, rfl⟩
  · exact Alternative.farther_of_lt hlt
  · exact Alternative.mk_farther_mk _ _ _

/-- Where a letter or a digit stands, nothing remains of the other forms. -/
theorem exists_reply_of_letter (table : ConstructorTable)
    (hletter : ¬ Stops isNameChar place.rest) :
    ∃ reply : Reply Tree, Parallel table place (Onward place) reply reply ∧
      (∃ alternative, reply.alternative? = some alternative ∧ Outdoes place alternative) ∧
      ∀ room inner, choice (markedForms room inner table ++ [atom]) place.cursor = reply := by
  have hother : ∀ wanted : Char, isNameChar wanted = false → wanted ∉ place.rest.head? := by
    intro wanted hwanted hmem
    obtain ⟨rest, hrest⟩ := List.head?_eq_some_iff.mp hmem
    refine hletter ?_
    rw [hrest]
    rintro _ ⟨⟩
    exact hwanted
  have hforms : ∀ room inner, ∃ expectations,
      choice (markedForms room inner table ++ [atom]) place.cursor =
        ⟨(atom place.cursor).result?, farther
          (some ⟨place.nextSpan, .expected expectations⟩) (atom place.cursor).alternative?⟩ := by
    intro room inner
    refine exists_reply_of_choice (fun p hp => ?_) (List.cons_ne_nil _ _)
    simp only [markedForms, List.mem_cons, List.not_mem_nil, or_false] at hp
    rcases hp with rfl | rfl | rfl | rfl | rfl | rfl | rfl | rfl | rfl <;>
      exact reply_of_other (hother _ (by decide))
  rcases exists_reply_of_atom table hletter with
    ⟨tree, last, alternative, honward, hlt, hleaves, hplain, hatom⟩ |
      ⟨span, rejection, hstart, hrejects, hatom⟩
  · refine ⟨⟨some (tree, last.cursor), some alternative⟩, ?_, ⟨alternative, rfl, .inl hlt⟩, ?_⟩
    · refine parallel_self ?_ ?_ nofun
      · rintro _ ⟨⟩
        exact ⟨hleaves, hplain⟩
      · rintro _ _ ⟨⟩
        exact ⟨last, rfl, honward.lt.le, honward⟩
    · intro room inner
      obtain ⟨expectations, hreply⟩ := hforms room inner
      rw [hreply, hatom, some_farther_some, Alternative.farther_of_lt hlt]
  · refine ⟨⟨none, some ⟨place.nextSpan, .rejected rejection⟩⟩, ?_, ⟨_, rfl, .inr ⟨_, rfl⟩⟩, ?_⟩
    · exact parallel_refused (leaves_of_rejected place.offset_le_next hrejects)
    · intro room inner
      obtain ⟨expectations, hreply⟩ := hforms room inner
      rw [hreply, hatom, some_farther_some, Alternative.farther_of_eq hstart.symm]
      rfl

/-- The forms of a term, where no mark is before. -/
theorem parallel_forms (hinner : Beside table place inner inner') (hmarked : ¬ IsMarked place) :
    Parallel table place (Onward place)
      (choice (markedForms blank inner table ++ [atom]) place.cursor)
      (choice (markedForms (quietly blank) inner' table ++ [atom]) place.cursor) := by
  by_cases hstops : Stops isNameChar place.rest
  · refine Parallel.choice ?_ (List.cons_ne_nil _ _)
    exact .cons (parallel_erasure hmarked) <|
      .cons (parallel_lambda hinner hmarked) <|
      .cons (parallel_operatorApplication hinner hmarked) <|
      .cons (parallel_application hinner hmarked) <|
      .cons (parallel_superposition hinner hmarked) <|
      .cons (parallel_duplication hinner hmarked) <|
      .cons (parallel_reference hmarked) <|
      .cons (parallel_constructor hinner hmarked) <|
      .cons (parallel_matching hinner hmarked) <|
      .cons (parallel_atom hstops) .nil
  · obtain ⟨reply, hreply, -, hforms⟩ := exists_reply_of_letter table hstops
    rwa [hforms, hforms]

/-- A term may begin at any place, also behind a mark. -/
theorem parallel_form (hinner : Beside table place inner inner') :
    Parallel table place (Onward place) (form blank inner table place.cursor)
      (form (quietly blank) inner' table place.cursor) := by
  rw [form_eq_bind, form_eq_bind]
  by_cases hmarked : IsMarked place
  · have hletter : ¬ Stops isNameChar place.rest := fun hstops =>
      not_isMarked_of_stops hstops hmarked
    obtain ⟨reply, hreply, ⟨alternative, halternative, houtdoes⟩, hforms⟩ :=
      exists_reply_of_letter table hletter
    obtain ⟨expectations, hblank⟩ := exists_reply_of_blank_letter hletter
    have hquiet : quietly blank place.cursor = ⟨some ((), place.cursor), none⟩ := by
      rw [quietly, hblank]
    have hsame : (⟨reply.result?, some alternative⟩ : Reply Tree) = reply := by
      rw [← halternative]
    rw [bind_apply_of_some (by rw [hblank]), bind_apply_of_some (by rw [hquiet]), hblank, hquiet,
      hforms, hforms, none_farther, halternative, some_farther_some, houtdoes.farther_eq, hsame]
    exact hreply
  · refine (parallel_blank hmarked).bind fun _ start hstart hroom => ?_
    refine (parallel_forms (fun here hhere => hinner here (by omega)) hroom.1).imp ?_
    exact fun last _ hlast => hlast.of_le hstart

/-! ## Terms -/

theorem parallel_termUpTo {fuel : Nat} (hfuel : place.rest.length < fuel) :
    Parallel table place (Onward place) (termUpTo blank table fuel place.cursor)
      (termUpTo (quietly blank) table fuel place.cursor) := by
  induction fuel generalizing place with
  | zero => exact absurd hfuel (Nat.not_lt_zero _)
  | succ fuel ih =>
    refine parallel_form fun here hhere => ih ?_
    have hshorter := Place.length_rest_lt hhere
    omega

theorem parallel_termWith (place : Place text) :
    Parallel table place (Onward place) (termWith blank table place.cursor)
      (termWith (quietly blank) table place.cursor) :=
  parallel_termUpTo (Nat.lt_succ_self _)

/-! ## Data blocks and definitions -/

theorem parallel_field (hmarked : ¬ IsMarked place) :
    Parallel table place (Onward place) (field blank place.cursor)
      (field (quietly blank) place.cursor) := by
  refine (parallel_blank hmarked).bind fun _ start hstart _ => ?_
  exact (parallel_name start).imp fun _ _ hlast => hlast.of_le hstart

theorem parallel_constructorDeclaration (hmarked : ¬ IsMarked place) :
    Parallel table place (Onward place) (constructorDeclaration blank place.cursor)
      (constructorDeclaration (quietly blank) place.cursor) := by
  refine Parallel.named ?_ rfl hmarked fun _ => Onward.lt
  refine (parallel_blank hmarked).bind fun _ start hstart hroom => ?_
  refine (parallel_char (by decide) hroom.1).bind fun _ mark hmark _ => ?_
  refine (parallel_name mark).bind fun _ stop hstop hmarked => ?_
  refine (parallel_blank hmarked.not_isMarked).bind fun _ start hstart hroom => ?_
  refine (parallel_symbol (by decide) hroom.1).bind fun _ opened hopened hmarked => ?_
  refine (parallel_closedBy '}' 0 (by decide) hmarked.not_isMarked
    fun _ _ hmarked => parallel_field hmarked).bind fun _ last _ hlast => ?_
  exact parallel_pure _ (hlast.of_le (by omega))

theorem parallel_dataBlock (hmarked : ¬ IsMarked place) :
    Parallel table place (Onward place) (dataBlock place.cursor)
      (dataBlockWith (quietly blank) place.cursor) := by
  refine Parallel.named ?_ rfl hmarked fun _ => Onward.lt
  refine (parallel_blank hmarked).bind fun _ start hstart hroom => ?_
  refine (parallel_chars (by decide) (List.cons_ne_nil _ _) hroom.1).bind
    fun _ keyword hkeyword hmarked => ?_
  refine (parallel_blank hmarked.not_isMarked).bind fun _ start hstart _ => ?_
  refine (parallel_name start).bind fun _ stop hstop hmarked => ?_
  refine (parallel_blank hmarked.not_isMarked).bind fun _ start hstart hroom => ?_
  refine (parallel_symbol (by decide) hroom.1).bind fun _ opened hopened hmarked => ?_
  refine (parallel_closedBy '}' 0 (by decide) hmarked.not_isMarked
    fun _ _ hmarked => parallel_constructorDeclaration hmarked).bind fun _ last _ hlast => ?_
  exact parallel_pure _ (hlast.of_le (by omega))

theorem parallel_definition (hmarked : ¬ IsMarked place) :
    Parallel table place (Onward place) (definition table place.cursor)
      (definitionWith (quietly blank) table place.cursor) := by
  refine Parallel.named ?_ rfl hmarked fun _ => Onward.lt
  refine (parallel_blank hmarked).bind fun _ start hstart hroom => ?_
  refine (parallel_symbol (by decide) hroom.1).bind fun _ head hhead _ => ?_
  refine (parallel_name head).bind fun _ stop hstop hmarked => ?_
  refine (parallel_blank hmarked.not_isMarked).bind fun _ start hstart hroom => ?_
  refine (parallel_symbol (by decide) hroom.1).bind fun _ equals hequals _ => ?_
  refine (parallel_termWith equals).bind fun _ last _ hlast => ?_
  exact parallel_pure _ (hlast.of_le (by omega))

/-! ## Whole texts -/

theorem parallel_termText (table : ConstructorTable) (text : List Char) :
    Parallel table (Place.start text) (fun _ => True) (termText table (.ofText text))
      (termTextWith (quietly blank) table (.ofText text)) := by
  refine (parallel_termWith (Place.start text)).bind fun tree stop _ hstop => ?_
  refine (parallel_blank hstop.not_isMarked).bind fun _ start _ hroom => ?_
  refine (parallel_endOfInput hroom.1).bind fun _ last _ _ => ?_
  exact parallel_pure tree trivial

theorem parallel_many_dataBlock (hmarked : ¬ IsMarked place) :
    Parallel table place (fun last => ¬ IsMarked last) (many dataBlock place.cursor)
      (many (dataBlockWith (quietly blank)) place.cursor) :=
  (parallel_many hmarked fun _ _ hmarked => (parallel_dataBlock hmarked).imp
    fun _ _ hlast => ⟨hlast.lt, hlast.not_isMarked⟩).1

theorem parallel_bookText (table : ConstructorTable) (text : List Char) :
    Parallel table (Place.start text) (fun _ => True) (bookText table (.ofText text))
      (bookTextWith (quietly blank) table (.ofText text)) := by
  refine (parallel_many_dataBlock not_isMarked_start).bind fun blocks stop _ hstop => ?_
  have hdefinitions : Parallel table stop (fun last => ¬ IsMarked last)
      (many (definition table) stop.cursor)
      (many (definitionWith (quietly blank) table) stop.cursor) :=
    (parallel_many hstop fun _ _ hmarked => (parallel_definition hmarked).imp
      fun _ _ hlast => ⟨hlast.lt, hlast.not_isMarked⟩).1
  refine hdefinitions.bind fun definitions stop _ hstop => ?_
  refine (parallel_blank hstop).bind fun _ start _ hroom => ?_
  refine (parallel_endOfInput hroom.1).bind fun _ last _ _ => ?_
  exact parallel_pure (blocks, definitions) trivial

end InteractionGraph.Grammar
