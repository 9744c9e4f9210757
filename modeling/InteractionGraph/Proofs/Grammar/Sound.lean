import InteractionGraph.Proofs.Grammar.Complete
import InteractionGraph.Proofs.Grammar.Layout
import Mathlib.Data.List.Basic

/-!
# Every term that is read is written there

What the parser of terms gives is derived by the grammar, from the tokens of the text that it went
through (`Tree.isReading_of_read`).  Each rule is gone through the other way than for completeness:
the parts of a rule gave something, and the tokens are put together from what their texts are cut
into.

All rules but one need to know nothing about the alternatives that were tried before.  An
application is not that of an erasure to two arguments, because this would have been read as a
product: from the same cursors on, operands are read where arguments are.
-/

namespace InteractionGraph

namespace Grammar

open Parse Parser Text

variable {table : ConstructorTable} {inner : Parser Tree} {cursor behind : Cursor} {tree : Tree}

/-! ## What soundness means -/

/-- What a parser gives is derived from the tokens of the text that it went through. -/
def Sound (table : ConstructorTable) (p : Parser Tree) : Prop :=
  ∀ {cursor tree behind}, Gives p cursor tree behind →
    ∃ tokens, Derives table tree tokens ∧ Scans tokens cursor.rest behind.rest

/-- The same where no room is in front. -/
def SoundForm (table : ConstructorTable) (p : Parser Tree) : Prop :=
  ∀ {cursor tree behind}, Fresh cursor.rest → Gives p cursor tree behind →
    ∃ tokens, Derives table tree tokens ∧ Scans tokens cursor.rest behind.rest

/-! ## Terms without parts -/

theorem sound_erasure : SoundForm table erasure := by
  intro cursor tree behind hfresh h
  simp only [erasure, gives_named, gives_bind, gives_pure] at h
  obtain ⟨_, _, hstar, rfl, rfl⟩ := h
  exact ⟨_, .era, scans_symbol (by decide) hfresh.spaces hstar⟩

theorem sound_reference : SoundForm table reference := by
  intro cursor tree behind hfresh h
  simp only [reference, gives_named, gives_bind, gives_pure] at h
  obtain ⟨_, _, hmark, name, _, hname, rfl, rfl⟩ := h
  obtain ⟨hn, hrest, hstops⟩ := gives_name hname
  exact ⟨_, .ref hn, scans_marked hfresh.spaces hmark hrest
    (longest_letters ['@'] hn.1 hn.2 hstops)⟩

theorem sound_atom : SoundForm table atom := by
  intro cursor tree behind hfresh h
  obtain ⟨name, hname, hatom⟩ := gives_verify.mp h
  obtain ⟨hn, hscans⟩ := scans_name hfresh.spaces (gives_named.mp hname)
  refine ⟨[name.toList], ?_, hscans⟩
  unfold atomOfName at hatom
  split at hatom
  · rename_i hdigits
    split at hatom
    · rename_i value hword
      cases hatom
      exact .u32 (isNumeral_of_wordOfDigits? hn.1 (by simpa using hdigits) hword)
    · cases hatom
  · rename_i hdigits
    cases hatom
    exact .var hn (by simpa using hdigits)

/-! ## Terms with a fixed number of parts -/

theorem sound_lambda (hinner : Sound table inner) : SoundForm table (lambda blank inner) := by
  intro cursor tree behind hfresh h
  simp only [lambda, gives_named, gives_bind, gives_pure] at h
  obtain ⟨_, _, hmark, _, _, hroom, name, _, hname, body, _, hbody, rfl, rfl⟩ := h
  obtain ⟨hn, hscans⟩ := scans_name (gives_blank hroom) hname
  obtain ⟨tokens, hderives, htokens⟩ := hinner hbody
  exact ⟨_, .lam hn hderives,
    (scans_symbol (by decide) hfresh.spaces hmark).append (hscans.append htokens)⟩

theorem sound_superposition (hinner : Sound table inner) :
    SoundForm table (superposition blank inner) := by
  intro cursor tree behind hfresh h
  simp only [superposition, gives_named, gives_bind, gives_pure] at h
  obtain ⟨_, _, hmark, label, _, hlabel, _, _, hroom, _, _, hopen, left, _, hleft, right, _, hright,
    _, _, hroom', _, _, hclose, rfl, rfl⟩ := h
  have hstops := stops_of_gives (by decide) hroom hopen
  obtain ⟨digits, hdigits, hscans⟩ := scans_label hfresh.spaces hmark hlabel hstops
  obtain ⟨first, hfirst, hfirstScans⟩ := hinner hleft
  obtain ⟨second, hsecond, hsecondScans⟩ := hinner hright
  have hbrace := scans_symbol (by decide) (gives_blank hroom) hopen
  have hend := scans_symbol (by decide) (gives_blank hroom') hclose
  exact ⟨_, .sup hdigits hfirst hsecond,
    hscans.append (hbrace.append (hfirstScans.append (hsecondScans.append hend)))⟩

theorem sound_duplication (hinner : Sound table inner) :
    SoundForm table (duplication blank inner) := by
  intro cursor tree behind hfresh h
  simp only [duplication, gives_named, gives_bind, gives_pure] at h
  obtain ⟨_, _, hmark, _, _, hroom₁, _, _, hand, label, _, hlabel, _, _, hroom₂, _, _, hopen,
    _, _, hroom₃, dp0, _, hdp0, _, _, hroom₄, dp1, _, hdp1, _, _, hroom₅, _, _, hclose,
    _, _, hroom₆, _, _, hequals, value, _, hvalue, body, _, hbody, rfl, rfl⟩ := h
  have hbang := scans_symbol (by decide) hfresh.spaces hmark
  have hstops := stops_of_gives (by decide) hroom₂ hopen
  obtain ⟨digits, hdigits, hscans⟩ := scans_label (gives_blank hroom₁) hand hlabel hstops
  have hbrace := scans_symbol (by decide) (gives_blank hroom₂) hopen
  obtain ⟨hn₀, hfirst⟩ := scans_name (gives_blank hroom₃) hdp0
  obtain ⟨hn₁, hsecond⟩ := scans_name (gives_blank hroom₄) hdp1
  have hend := scans_symbol (by decide) (gives_blank hroom₅) hclose
  have hsign := scans_symbol (by decide) (gives_blank hroom₆) hequals
  obtain ⟨tokens, hderives, htokens⟩ := hinner hvalue
  obtain ⟨others, hderives', hothers⟩ := hinner hbody
  exact ⟨_, .dup hdigits hn₀ hn₁ hderives hderives',
    hbang.append (hscans.append (hbrace.append (hfirst.append (hsecond.append
      (hend.append (hsign.append (htokens.append hothers)))))))⟩

theorem sound_operatorApplication (hinner : Sound table inner) :
    SoundForm table (operatorApplication blank inner) := by
  intro cursor tree behind hfresh h
  simp only [operatorApplication, gives_named, gives_bind, gives_pure] at h
  obtain ⟨_, _, hopen, _, _, hroom, op, _, hop, left, _, hleft, right, _, hright, _, _, hroom',
    _, _, hclose, rfl, rfl⟩ := h
  have hmark := scans_symbol (by decide) hfresh.spaces hopen
  have hsymbol := scans_operator (gives_blank hroom) hop
  obtain ⟨first, hfirst, hfirstScans⟩ := hinner hleft
  obtain ⟨second, hsecond, hsecondScans⟩ := hinner hright
  have hend := scans_symbol (by decide) (gives_blank hroom') hclose
  exact ⟨_, .op2 hfirst hsecond,
    hmark.append (hsymbol.append (hfirstScans.append (hsecondScans.append hend)))⟩

/-! ## Lists -/

variable {α ι : Type} {item : Parser α} {value : ι → α} {tokens : ι → List Token}
  {Good : ι → Prop}

/-- What the guard lets through is an item. -/
theorem gives_of_guarded {close : Char} {result : α}
    (h : Gives (guarded close item) cursor result behind) : Gives item cursor result behind := by
  simp only [guarded, gives_bind, gives_notFollowedBy] at h
  obtain ⟨_, _, ⟨-, rfl⟩, hitem⟩ := h
  exact hitem

/-- A list is items one behind the other, and its closing character behind the room after them. -/
theorem exists_of_gives_closedBy {close : Char} {least : Nat} {values : List α}
    (h : Gives (closedBy blank close least item) cursor values behind) :
    ∃ middle last u v, Runs (guarded close item) cursor values middle ∧ least ≤ values.length ∧
      Gives blank middle u last ∧ Gives (char close) last v behind := by
  simp only [closedBy, gives_bind, gives_pure] at h
  obtain ⟨_, _, hitems, _, _, hroom, _, _, hmark, rfl, rfl⟩ := h
  obtain ⟨hmany, hleast⟩ := gives_manyAtLeast.mp hitems
  exact ⟨_, _, _, _, hmany.runs, hleast, hroom, hmark⟩

/-- Items that were given one behind the other are written one behind the other. -/
theorem exists_scans_of_runs {close : Char} {values : List α}
    (hitem : ∀ {cursor result behind}, Gives item cursor result behind →
      ∃ written, value written = result ∧ Good written ∧
        Scans (tokens written) cursor.rest behind.rest)
    (h : Runs (guarded close item) cursor values behind) :
    ∃ written : List ι, written.map value = values ∧ (∀ i ∈ written, Good i) ∧
      Scans (written.flatMap tokens) cursor.rest behind.rest := by
  induction h with
  | nil => exact ⟨[], rfl, by simp, .nil⟩
  | cons hfirst _ ih =>
    obtain ⟨i, rfl, hgood, hscans⟩ := hitem (gives_of_guarded hfirst)
    obtain ⟨written, rfl, hall, hothers⟩ := ih
    exact ⟨i :: written, rfl, List.forall_mem_cons.mpr ⟨hgood, hall⟩, hscans.append hothers⟩

/-- A list that was given is written, with its closing character. -/
theorem exists_scans_of_closedBy {close : Char} {least : Nat} {values : List α}
    (hclose : close ∈ punctuation)
    (hitem : ∀ {cursor result behind}, Gives item cursor result behind →
      ∃ written, value written = result ∧ Good written ∧
        Scans (tokens written) cursor.rest behind.rest)
    (h : Gives (closedBy blank close least item) cursor values behind) :
    ∃ written : List ι, written.map value = values ∧ (∀ i ∈ written, Good i) ∧
      least ≤ written.length ∧
      Scans (written.flatMap tokens ++ [[close]]) cursor.rest behind.rest := by
  obtain ⟨_, _, _, _, hruns, hleast, hroom, hmark⟩ := exists_of_gives_closedBy h
  obtain ⟨written, rfl, hall, hscans⟩ := exists_scans_of_runs hitem hruns
  have hend := scans_symbol hclose (gives_blank hroom) hmark
  rw [List.length_map] at hleast
  exact ⟨written, rfl, hall, hleast, hscans.append hend⟩

/-- Terms that were given, with their tokens. -/
theorem Sound.exists_written (hinner : Sound table inner) {cursor behind : Cursor} {result : Tree}
    (h : Gives inner cursor result behind) :
    ∃ written : Tree × List Token, written.1 = result ∧ Derives table written.1 written.2 ∧
      Scans written.2 cursor.rest behind.rest := by
  obtain ⟨tokens, hderives, hscans⟩ := hinner h
  exact ⟨(result, tokens), rfl, hderives, hscans⟩

theorem sound_constructor (hinner : Sound table inner) :
    SoundForm table (constructor blank inner table) := by
  intro cursor tree behind hfresh h
  simp only [constructor, gives_named, gives_bind, gives_pure] at h
  obtain ⟨_, _, hmark, id, _, hid, _, _, hroom, _, _, hopen, fields, _, hfields, rfl, rfl⟩ := h
  obtain ⟨letters, hname, hrest⟩ := gives_constructorId hid
  have hstops := stops_of_gives (by decide) hroom hopen
  have hhead := scans_hash hfresh.spaces hmark hrest hname.1 hstops
  have hbrace := scans_symbol (by decide) (gives_blank hroom) hopen
  obtain ⟨written, rfl, hwritten, -, hscans⟩ :=
    exists_scans_of_closedBy (by decide) hinner.exists_written hfields
  exact ⟨_, .ctr hname hwritten, hhead.append (hbrace.append hscans)⟩

/-- An arm that was given, with its tokens. -/
theorem Sound.exists_writtenArm (hinner : Sound table inner) {cursor behind : Cursor}
    {result : UInt32 × Tree} (h : Gives (arm blank inner table) cursor result behind) :
    ∃ written : WrittenArm, written.arm = result ∧
      (NamesArm table written.letters written.id ∧
        Derives table written.body written.bodyTokens) ∧
      Scans written.tokens cursor.rest behind.rest := by
  simp only [Grammar.arm, gives_named, gives_bind, gives_pure] at h
  obtain ⟨_, _, hroom, _, _, hmark, id, _, hid, _, _, hroom', _, _, hcolon, body, _, hbody, rfl,
    rfl⟩ := h
  obtain ⟨letters, hname, hrest, hletters⟩ := gives_armId hid
  have hstops := stops_of_gives (by decide) hroom' hcolon
  have hhead := scans_hash (gives_blank hroom) hmark hrest hletters hstops
  have hsign := scans_symbol (by decide) (gives_blank hroom') hcolon
  obtain ⟨tokens, hderives, hscans⟩ := hinner hbody
  exact ⟨⟨letters, id, body, tokens⟩, rfl, ⟨hname, hderives⟩, hhead.append (hsign.append hscans)⟩

theorem sound_matching (hinner : Sound table inner) :
    SoundForm table (matching blank inner table) := by
  intro cursor tree behind hfresh h
  simp only [matching, gives_named, gives_bind, gives_pure] at h
  obtain ⟨_, _, hmark, scrutinee, _, hscrutinee, _, _, hroom, _, _, hopen, arms, _, harms, rfl,
    rfl⟩ := h
  have htilde := scans_symbol (by decide) hfresh.spaces hmark
  obtain ⟨tokens, hderives, htokens⟩ := hinner hscrutinee
  have hbrace := scans_symbol (by decide) (gives_blank hroom) hopen
  obtain ⟨written, rfl, hwritten, -, hscans⟩ :=
    exists_scans_of_closedBy (by decide) hinner.exists_writtenArm harms
  exact ⟨_, .mat hderives (fun arm harm => (hwritten arm harm).1)
    (fun arm harm => (hwritten arm harm).2), htilde.append (htokens.append (hbrace.append hscans))⟩

/-! ## Applications -/

/-- Where an erasure stands, the parser of terms stops behind it. -/
def ErasureStops (inner : Parser Tree) : Prop :=
  ∀ {cursor behind}, Gives inner cursor .era behind →
    ∃ u middle after, Gives blank cursor u middle ∧ middle.rest = '*' :: after ∧
      behind = middle.advance '*' after

/-- Where an erasure stands, the operator `*` is read as well. -/
theorem gives_operator_mul {after : List Char} (h : cursor.rest = '*' :: after) :
    Gives operator cursor .mul (cursor.advance '*' after) := by
  obtain ⟨offset, text⟩ := cursor
  cases h
  rfl

/-- A list of an erasure and two arguments is read as a product. -/
theorem not_fails_operatorApplication {u : Unit} {middle last : Cursor}
    {arguments : List Tree} (hera : ErasureStops inner) (hopen : Gives (char '(') cursor u middle)
    (hfunction : Gives inner middle .era last)
    (harguments : Gives (closedBy blank ')' 1 inner) last arguments behind)
    (hpair : arguments.length = 2) : ¬ Fails (operatorApplication blank inner) cursor := by
  obtain ⟨_, between, after, hroom, hstar, rfl⟩ := hera hfunction
  obtain ⟨_, _, _, _, hruns, -, hroom', hclose⟩ := exists_of_gives_closedBy harguments
  obtain ⟨left, right, rfl⟩ := List.length_eq_two.mp hpair
  cases hruns with
  | cons hleft hruns =>
    cases hruns with
    | cons hright hruns =>
      cases hruns
      have hleft := gives_of_guarded hleft
      have hright := gives_of_guarded hright
      have hgives : Gives (operatorApplication blank inner) cursor (.op2 .mul left right)
          behind := by
        simp only [operatorApplication, gives_named, gives_bind, gives_pure]
        exact ⟨_, _, hopen, _, _, hroom, .mul, _, gives_operator_mul hstar, left, _, hleft, right,
          _, hright, _, _, hroom', _, _, hclose, rfl, rfl⟩
      exact hgives.not_fails

theorem exists_derives_of_application (hinner : Sound table inner) (hera : ErasureStops inner)
    (hfresh : Fresh cursor.rest) (hfails : Fails (operatorApplication blank inner) cursor)
    (h : Gives (application blank inner) cursor tree behind) :
    ∃ tokens, Derives table tree tokens ∧ Scans tokens cursor.rest behind.rest := by
  simp only [application, gives_named, gives_bind, gives_pure] at h
  obtain ⟨_, _, hopen, function, _, hfunction, arguments, _, harguments, rfl, rfl⟩ := h
  have hmark := scans_symbol (by decide) hfresh.spaces hopen
  obtain ⟨tokens, hderives, htokens⟩ := hinner hfunction
  obtain ⟨written, hmap, hwritten, hleast, hscans⟩ :=
    exists_scans_of_closedBy (by decide) hinner.exists_written harguments
  have hpair : ¬ (function = .era ∧ written.length = 2) := by
    rintro ⟨rfl, hlength⟩
    rw [← List.length_map Prod.fst, hmap] at hlength
    exact not_fails_operatorApplication hera hopen hfunction harguments hlength hfails
  have happ := Derives.app hderives hwritten (List.length_pos_iff.mp hleast) hpair
  rw [hmap] at happ
  exact ⟨_, happ, hmark.append (htokens.append hscans)⟩

/-! ## Terms -/

theorem sound_alternatives (hinner : Sound table inner) (hera : ErasureStops inner) :
    SoundForm table (choice (alternatives inner table)) := by
  intro cursor tree behind hfresh h
  simp only [alternatives, gives_choice_cons] at h
  rcases h with h | ⟨-, h | ⟨-, h | ⟨hfails, h | ⟨-, h | ⟨-, h | ⟨-, h | ⟨-, h | ⟨-, h | ⟨-, h |
    ⟨-, h⟩⟩⟩⟩⟩⟩⟩⟩⟩⟩
  · exact sound_erasure hfresh h
  · exact sound_lambda hinner hfresh h
  · exact sound_operatorApplication hinner hfresh h
  · exact exists_derives_of_application hinner hera hfresh hfails h
  · exact sound_superposition hinner hfresh h
  · exact sound_duplication hinner hfresh h
  · exact sound_reference hfresh h
  · exact sound_constructor hinner hfresh h
  · exact sound_matching hinner hfresh h
  · exact sound_atom hfresh h
  · exact absurd h not_gives_fail

/-- An erasure is written in one way. -/
theorem Derives.tokens_of_era {tokens : List Token} (h : Derives table .era tokens) :
    tokens = [['*']] := by
  generalize htree : Tree.era = tree at h
  cases h with
  | era => rfl
  | @app function _ arguments _ _ hne _ =>
    obtain ⟨argument, others, hlast⟩ := (List.eq_nil_or_concat arguments).resolve_left hne
    rw [hlast] at htree
    simp [Tree.applyAll] at htree
  | lam _ _ | sup _ _ _ | dup _ _ _ _ _ | ref _ | var _ _ | ctr _ _ | mat _ _ _ | op2 _ _ | u32 _ =>
    cases htree

/-- A term is read behind the room before it. -/
theorem exists_of_gives_form (h : Gives (form blank inner table) cursor tree behind) :
    ∃ middle, Spaces cursor.rest middle.rest ∧ Fresh middle.rest ∧
      (∃ u, Gives blank cursor u middle) ∧
      Gives (choice (alternatives inner table)) middle tree behind := by
  rw [form_eq, gives_bind] at h
  obtain ⟨u, middle, hroom, hchoice⟩ := h
  obtain ⟨gap, hgap, hfresh⟩ := gives_blank hroom
  exact ⟨middle, ⟨gap, hgap, hfresh⟩, hfresh.fresh, ⟨u, hroom⟩, hchoice⟩

theorem sound_form (hinner : Sound table inner) (hera : ErasureStops inner) :
    Sound table (form blank inner table) := by
  intro cursor tree behind h
  obtain ⟨middle, hspaces, hfresh, -, hchoice⟩ := exists_of_gives_form h
  obtain ⟨tokens, hderives, hscans⟩ := sound_alternatives hinner hera hfresh hchoice
  obtain ⟨_, _, _, rfl, _⟩ := hderives.begins
  exact ⟨_, hderives, hspaces.trans_scans hscans⟩

theorem erasureStops_form (hinner : Sound table inner) (hera : ErasureStops inner) :
    ErasureStops (form blank inner table) := by
  intro cursor behind h
  obtain ⟨middle, -, hfresh, ⟨u, hroom⟩, hchoice⟩ := exists_of_gives_form h
  obtain ⟨tokens, hderives, hscans⟩ := sound_alternatives hinner hera hfresh hchoice
  obtain rfl := hderives.tokens_of_era
  obtain ⟨after, hrest⟩ := hscans.eq_of_fresh hfresh
  have hstar : Gives erasure middle .era (middle.advance '*' after) := by
    simp only [erasure, gives_named, gives_bind, gives_pure]
    exact ⟨(), _, gives_char.mpr ⟨after, hrest, rfl⟩, trivial, rfl⟩
  have hfirst : Gives (choice (alternatives inner table)) middle .era (middle.advance '*' after) :=
    gives_choice_cons.mpr (.inl hstar)
  exact ⟨u, middle, after, hroom, hrest, (hchoice.unique hfirst).2⟩

/-- Whatever the depth up to which terms may nest. -/
theorem sound_termUpTo (table : ConstructorTable) (fuel : Nat) :
    Sound table (termUpTo blank table fuel) ∧ ErasureStops (termUpTo blank table fuel) := by
  induction fuel with
  | zero => exact ⟨fun h => absurd h not_gives_fail, fun h => absurd h not_gives_fail⟩
  | succ fuel ih => exact ⟨sound_form ih.1 ih.2, erasureStops_form ih.1 ih.2⟩

theorem gives_termWith (h : Gives (termWith blank table) cursor tree behind) :
    Gives (termUpTo blank table (cursor.rest.length + 1)) cursor tree behind := by
  have hterm : termWith blank table cursor =
      termUpTo blank table (cursor.rest.length + 1) cursor := rfl
  rwa [Gives, hterm] at h

theorem sound_termWith : Sound table (termWith blank table) := by
  intro cursor tree behind h
  exact (sound_termUpTo table (cursor.rest.length + 1)).1 (gives_termWith h)

/-! ## Whole texts -/

theorem isReading_of_gives (h : Gives (termText table) cursor tree behind) :
    IsReading table tree cursor.rest := by
  simp only [termText, termTextWith, gives_bind, gives_pure] at h
  obtain ⟨_, middle, hterm, _, _, hroom, _, _, hend, rfl, rfl⟩ := h
  obtain ⟨hnil, rfl⟩ := gives_endOfInput.mp hend
  obtain ⟨tokens, hderives, hscans⟩ := sound_termWith hterm
  obtain ⟨gap, hgap, hroom⟩ := gives_blank hroom
  rw [hnil] at hgap hroom
  rw [hgap, List.append_nil] at hscans
  exact ⟨tokens, gap, hderives, hscans, hroom⟩

/-- A text has one reading at most. -/
theorem IsReading.unique {other : Tree} {text : List Char} (h : IsReading table tree text)
    (hother : IsReading table other text) : other = tree := by
  obtain ⟨tokens, rest, hderives, hscans, hroom⟩ := h
  obtain ⟨others, rest', hderives', hscans', hroom'⟩ := hother
  have hspelling : IsSpelling table tree (text ++ ['\n']) := ⟨tokens, hderives, hscans.spells hroom⟩
  exact IsSpelling.unique ⟨others, hderives', hscans'.spells hroom'⟩ hspelling

end Grammar

open Grammar

/-- What is read is a reading of the text. -/
theorem Tree.isReading_of_read {table : ConstructorTable} {text : String} {tree : Tree}
    (h : Tree.read table text = .ok tree) : IsReading table tree text.toList := by
  unfold Tree.read Parse.Parser.read at h
  simp only at h
  split at h
  · rename_i value behind hresult
    cases h
    exact isReading_of_gives hresult
  · cases h

end InteractionGraph
