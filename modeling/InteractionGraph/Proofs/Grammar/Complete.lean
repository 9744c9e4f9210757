import InteractionGraph.Proofs.Grammar.Application
import InteractionGraph.Proofs.Grammar.Writable
import InteractionGraph.Reading

/-!
# Every spelling is read

The parser of terms reads each way to write a term, in whatever layout, as this term
(`Tree.read_complete`).  The rules have been gone through one by one, and what is left is the
induction on a derivation (`Derives.readable`) and the end of the text.

Since the parser has one answer, a text is a spelling of one term at most (`IsSpelling.unique`): the
grammar is not ambiguous, although operators and applications overlap in it.
-/

namespace InteractionGraph

namespace Grammar

open Parse Parser Text

variable {table : ConstructorTable} {tree other : Tree} {tokens : List Token}

theorem Derives.begins (h : Derives table tree tokens) : Begins tokens := h.head.begins

/-- Tokens that are derived for a term are read as the term. -/
theorem Derives.readable (h : Derives table tree tokens) : Readable table tree tokens := by
  induction h with
  | era => exact readable_era
  | lam hname _ ih => exact readable_lam hname ih
  | app hfunction harguments hne hpair ihfunction iharguments =>
    refine readable_app hfunction.head ihfunction ?_ iharguments hne hpair
    intro argument hmem
    exact (harguments argument hmem).begins
  | sup hdigits _ _ ihleft ihright => exact readable_sup hdigits ihleft ihright
  | dup hdigits hdp0 hdp1 _ _ ihvalue ihbody => exact readable_dup hdigits hdp0 hdp1 ihvalue ihbody
  | ref hname => exact readable_ref hname
  | var hname hdigits => exact readable_var hname hdigits
  | ctr hname _ ih => exact readable_ctr hname ih
  | mat _ hnames _ ihscrutinee ihbodies => exact readable_mat ihscrutinee hnames ihbodies
  | op2 hleft _ ihleft ihright => exact readable_op2 hleft.begins ihleft ihright
  | u32 hdigits => exact readable_u32 hdigits

/-- A term is read with the fuel that the length of the text gives. -/
theorem ReadsItem.termWith {text rest : List Char} (h : ReadsTerm table text tree rest) :
    Reads (termWith blank table) text tree rest := by
  intro offset
  unfold Grammar.termWith
  exact h.reads (text.length + 1) (Nat.lt_succ_self _) offset

/-- Where no token is left, room is read up to the end. -/
theorem reads_end {text : List Char} (h : Spells [] text) : Reads blank text () [] := by
  cases h with
  | nil hgap =>
    have hfresh : Fresh [] := ⟨by simp [Stops], by simp⟩
    have hblank := reads_blank hgap hfresh
    rwa [List.append_nil] at hblank

/-- A text that is a spelling of a term is read to its end. -/
theorem reads_termText {text : List Char} (h : IsSpelling table tree text) :
    Reads (termText table) text tree [] := by
  obtain ⟨tokens, htokens, htext⟩ := h
  rw [← List.append_nil tokens] at htext
  obtain ⟨rest, hread, hrest⟩ := htokens.readable [] text htext
  unfold termText termTextWith
  exact hread.termWith.bind ((reads_end hrest).bind (Reads.endOfInput.bind (.pure tree [])))

end Grammar

open Grammar

variable {table : ConstructorTable} {tree other : Tree}

theorem Tree.read_of_isSpelling {text : String} (h : IsSpelling table tree text.toList) :
    Tree.read table text = .ok tree := by
  obtain ⟨behind, hbehind⟩ := reads_termText h 0
  have hresult : (termText table (.ofText text.toList)).result? = some (tree, ⟨behind, []⟩) :=
    hbehind
  unfold Tree.read Parse.Parser.read
  simp only [hresult]

/-- A text is a spelling of one term at most. -/
theorem Grammar.IsSpelling.unique {text : List Char} (h : IsSpelling table tree text)
    (hother : IsSpelling table other text) : tree = other := by
  rw [← String.toList_ofList (l := text)] at h hother
  have hread := Tree.read_of_isSpelling h
  rw [Tree.read_of_isSpelling hother, Except.ok.injEq] at hread
  exact hread.symm

/-- The terms that can be written are those that have a spelling, and every spelling of a term is
read as this term: with any gaps between the tokens, any leading zeros, any names of the
constructors, any order of arms that sorts to that of the term, and any grouping of applications
but for a list of `*` and two arguments. -/
theorem Tree.read_complete (table : ConstructorTable) (tree : Tree) :
    (Writable table tree ↔ ∃ text, IsSpelling table tree text) ∧
      ∀ text : String, IsSpelling table tree text.toList → Tree.read table text = .ok tree :=
  ⟨writable_iff_exists_isSpelling, fun _ h => read_of_isSpelling h⟩

/-- An erasure is applied to a superposition, whose label has a leading zero and a comment before
it.  A product would begin in the same way. -/
theorem Tree.read_complete_commented :
    IsSpelling .empty (.app .era (.sup 1 (.var "x") (.var "y"))) "( * // dp\n&01{x y})".toList ∧
      Tree.read .empty "( * // dp\n&01{x y})" =
        .ok (.app .era (.sup 1 (.var "x") (.var "y"))) := by
  have hx : Derives .empty (.var "x") [['x']] := .var ⟨by decide, by decide⟩ (by decide)
  have hy : Derives .empty (.var "y") [['y']] := .var ⟨by decide, by decide⟩ (by decide)
  have hsup : Derives .empty (.sup 1 (.var "x") (.var "y"))
      [['&', '0', '1'], ['{'], ['x'], ['y'], ['}']] :=
    .sup ⟨by decide, by decide, by decide⟩ hx hy
  have harguments : ∀ argument ∈ [(Tree.sup 1 (.var "x") (.var "y"),
      [['&', '0', '1'], ['{'], ['x'], ['y'], ['}']])],
      Derives .empty argument.1 argument.2 := by
    simpa using hsup
  have htokens : Derives .empty (.app .era (.sup 1 (.var "x") (.var "y")))
      [['('], ['*'], ['&', '0', '1'], ['{'], ['x'], ['y'], ['}'], [')']] :=
    .app .era harguments (by simp) (by simp)
  have hspace : IsGap [' '] := .blank (by decide) .nil
  have hcomment : IsGap (' ' :: '/' :: '/' :: ([' ', 'd', 'p'] ++ ['\n'])) :=
    .blank (by decide) (.comment (by decide) .nil)
  have hclosed : Spells [['}'], [')']] ['}', ')'] :=
    .cons .nil (by decide) (.cons .nil (by decide) (.nil .nil))
  have hparts : Spells [['{'], ['x'], ['y'], ['}'], [')']] ['{', 'x', ' ', 'y', '}', ')'] :=
    .cons .nil (by decide) (.cons .nil (by decide) (.cons hspace (by decide) hclosed))
  have htext : Spells [['('], ['*'], ['&', '0', '1'], ['{'], ['x'], ['y'], ['}'], [')']]
      ['(', ' ', '*', ' ', '/', '/', ' ', 'd', 'p', '\n', '&', '0', '1', '{', 'x', ' ', 'y', '}',
        ')'] :=
    .cons .nil (by decide) (.cons hspace (by decide) (.cons hcomment (by decide) hparts))
  have hspelling : IsSpelling .empty (.app .era (.sup 1 (.var "x") (.var "y")))
      "( * // dp\n&01{x y})".toList := ⟨_, htokens, htext⟩
  exact ⟨hspelling, (Tree.read_complete .empty _).2 _ hspelling⟩

end InteractionGraph
