import InteractionGraph.Proofs.Grammar.Layout
import InteractionGraph.Proofs.Grammar.Progress

/-!
# All the room there is

Room is read piece by piece: a character of white space, or a comment up to the end of its line.
What is in a comment does not matter, not even two slashes, and its line feed is the next piece.  A
text begins with one piece at most (`IsPiece.unique`), because a comment that stops short of the end
of its line is none.  So there is one way only to take pieces off a text, and the longest is the one
that leaves a text without another piece (`Pieces.prefix_of_fresh`).

That is what the parser of room takes (`gives_blank_iff`).  Gaps are pieces too, whatever follows
them, and so a gap in front of a text makes no difference to what is left of it.
-/

namespace InteractionGraph.Grammar

open Parse Parser Text

variable {piece taken gap rest other last : List Char}

/-- Pieces of room one behind the other, before the rest of a text.  The rest may begin with more
of them. -/
inductive Pieces : List Char → List Char → Prop where
  | nil {rest : List Char} : Pieces [] rest
  | cons {piece taken rest : List Char} :
    IsPiece piece (taken ++ rest) → Pieces taken rest → Pieces (piece ++ taken) rest

/-! ## One piece -/

theorem IsPiece.not_fresh (h : IsPiece piece rest) : ¬ Fresh (piece ++ rest) := by
  intro hfresh
  cases h with
  | @blank c _ hblank =>
    have hnot : isBlank c = false := hfresh.1 c rfl
    rw [hblank] at hnot
    cases hnot
  | @comment body _ _ _ => exact hfresh.2 ⟨body ++ rest, rfl⟩

/-- Two bodies of comments at one place are the same, for both go on to the first line feed, or to
the end of the text. -/
theorem eq_of_lines {body body' : List Char} (hbody : '\n' ∉ body) (hbody' : '\n' ∉ body')
    (hline : ∀ c ∈ rest.head?, c = '\n') (hline' : ∀ c ∈ last.head?, c = '\n')
    (htext : body ++ rest = body' ++ last) : body = body' ∧ rest = last := by
  have hall : ∀ {body : List Char}, '\n' ∉ body → ∀ c ∈ body, (c != '\n') = true :=
    fun hbody c hc => bne_iff_ne.mpr fun heq => hbody (heq ▸ hc)
  have hstops : Stops (· != '\n') rest := by simpa [Stops] using hline
  have hstops' : Stops (· != '\n') last := by simpa [Stops] using hline'
  exact eq_of_stops (hall hbody) (hall hbody') hstops hstops' htext

/-- A text begins with one piece at most. -/
theorem IsPiece.unique (h : IsPiece piece rest) (hother : IsPiece other last)
    (htext : piece ++ rest = other ++ last) : piece = other ∧ rest = last := by
  have hslash : isBlank '/' ≠ true := by decide
  cases h with
  | blank hblank =>
    cases hother with
    | blank _ =>
      obtain ⟨rfl, rfl⟩ := List.cons_eq_cons.mp htext
      exact ⟨rfl, rfl⟩
    | comment _ _ =>
      obtain ⟨rfl, -⟩ := List.cons_eq_cons.mp htext
      exact absurd hblank hslash
  | comment hbody hline =>
    cases hother with
    | blank hblank =>
      obtain ⟨rfl, -⟩ := List.cons_eq_cons.mp htext
      exact absurd hblank hslash
    | comment hbody' hline' =>
      obtain ⟨-, hbehind⟩ := List.cons_eq_cons.mp htext
      obtain ⟨-, hbodies⟩ := List.cons_eq_cons.mp hbehind
      obtain ⟨rfl, rfl⟩ := eq_of_lines hbody hbody' hline hline' hbodies
      exact ⟨rfl, rfl⟩

/-! ## All pieces -/

theorem Pieces.append (h : Pieces gap (taken ++ rest)) (hothers : Pieces taken rest) :
    Pieces (gap ++ taken) rest := by
  generalize hbehind : taken ++ rest = behind at h
  induction h with
  | nil => exact hothers
  | @cons piece gap behind hpiece _ ih =>
    subst hbehind
    rw [List.append_assoc]
    refine .cons ?_ (ih rfl)
    rwa [List.append_assoc]

/-- A gap is made of pieces, whatever follows it, because its comments end with their lines. -/
theorem IsGap.pieces (h : IsGap gap) (rest : List Char) : Pieces gap rest := by
  induction h with
  | nil => exact .nil
  | blank hblank _ ih => exact .cons (.blank hblank) ih
  | @comment body gap hbody _ ih =>
    have hfeed : Pieces ('\n' :: gap) rest := .cons (.blank (by decide)) ih
    exact .cons (.comment hbody (by rintro c ⟨⟩; rfl)) hfeed

/-- If no piece begins where the pieces that were taken end, then any others that the text begins
with are among them. -/
theorem Pieces.prefix_of_fresh (hother : Pieces other last) (h : Pieces taken rest)
    (hfresh : Fresh rest) (htext : taken ++ rest = other ++ last) : other <+: taken := by
  -- Piece by piece the two are the same, and what was taken does not run out first.
  induction hother generalizing taken with
  | nil => exact List.nil_prefix
  | @cons piece other last hpiece _ ih =>
    rw [List.append_assoc] at htext
    cases h with
    | nil =>
      rw [List.nil_append] at htext
      exact absurd (htext ▸ hfresh) hpiece.not_fresh
    | @cons piece' taken _ hpiece' htaken =>
      rw [List.append_assoc] at htext
      obtain ⟨rfl, hothers⟩ := hpiece'.unique hpiece htext
      exact (List.prefix_append_right_inj _).mpr (ih htaken hothers)

/-- All room is all pieces. -/
theorem room_iff : Room taken rest ↔ Pieces taken rest ∧ Fresh rest := by
  constructor
  · intro h
    refine ⟨?_, h.fresh⟩
    induction h with
    | nil _ => exact .nil
    | blank hblank _ ih => exact .cons (.blank hblank) ih
    | comment hbody hline _ ih => exact .cons (.comment hbody hline) ih
  · rintro ⟨h, hfresh⟩
    induction h with
    | nil => exact .nil hfresh
    | cons hpiece _ ih => exact (ih hfresh).cons hpiece

/-- A text can be cut in one way only so that all its room is before the cut. -/
theorem Room.unique (h : Room taken rest) (hother : Room other last)
    (htext : taken ++ rest = other ++ last) : taken = other ∧ rest = last := by
  obtain ⟨hpieces, hfresh⟩ := room_iff.mp h
  obtain ⟨hpieces', hfresh'⟩ := room_iff.mp hother
  -- Each of the two is a beginning of the other.
  have hle := (hpieces.prefix_of_fresh hpieces' hfresh' htext.symm).length_le
  have hprefix := hpieces'.prefix_of_fresh hpieces hfresh htext
  obtain rfl : other = taken := hprefix.eq_of_length_le hle
  exact ⟨rfl, List.append_cancel_left htext⟩

/-! ## What the parser of room takes -/

theorem exists_room (text : List Char) : ∃ taken rest, text = taken ++ rest ∧ Room taken rest := by
  obtain ⟨start, hgives⟩ := exists_gives_blank ⟨0, text⟩
  obtain ⟨taken, htext, hroom⟩ := gives_blank hgives
  exact ⟨taken, start.rest, htext, hroom⟩

/-- The parser of room takes all the room there is, and nothing else. -/
theorem gives_blank_iff {offset : Nat} :
    Gives blank ⟨offset, taken ++ rest⟩ () ⟨offset + byteLength taken, rest⟩ ↔ Room taken rest := by
  constructor
  · intro hgives
    obtain ⟨other, htext, hroom⟩ := gives_blank hgives
    obtain rfl : taken = other := List.append_cancel_right htext
    exact hroom
  · intro hroom
    obtain ⟨start, hgives⟩ := exists_gives_blank ⟨offset, taken ++ rest⟩
    obtain ⟨other, htext, hother⟩ := gives_blank hgives
    have hrest : start.rest = rest := (hroom.unique hother htext).2.symm
    have hreaches : Cursor.Reaches ⟨offset, taken ++ rest⟩ start :=
      (alike_blank _).gives _ _ hgives
    rwa [hreaches.eq_of_rest hrest] at hgives

/-- The parser of room reads every text.  What it takes is white space and comments, one behind the
other, and the rest is empty or begins with neither.  Nothing that a text begins with and that is
made of white space and comments is longer, and nothing else leaves such a rest.  So nothing is
taken a second time, and a gap in front of the text is taken together with the room behind it. -/
theorem blank_takes_all_room (text : List Char) :
    ∃ taken rest, text = taken ++ rest ∧
      (∀ offset, Gives blank ⟨offset, text⟩ () ⟨offset + byteLength taken, rest⟩) ∧
      Pieces taken rest ∧ Fresh rest ∧
      (∀ other last, text = other ++ last → Pieces other last → other <+: taken) ∧
      (∀ other last, text = other ++ last → Pieces other last → Fresh last → other = taken) ∧
      (∀ offset, Gives blank ⟨offset, rest⟩ () ⟨offset, rest⟩) ∧
      ∀ gap, IsGap gap → ∀ offset,
        Gives blank ⟨offset, gap ++ text⟩ () ⟨offset + byteLength (gap ++ taken), rest⟩ := by
  obtain ⟨taken, rest, rfl, hroom⟩ := exists_room text
  obtain ⟨hpieces, hfresh⟩ := room_iff.mp hroom
  refine ⟨taken, rest, rfl, fun _ => gives_blank_iff.mpr hroom, hpieces, hfresh, ?_, ?_, ?_, ?_⟩
  · intro other last htext hother
    exact hother.prefix_of_fresh hpieces hfresh htext
  · intro other last htext hother hlast
    exact ((room_iff.mpr ⟨hother, hlast⟩).unique hroom htext.symm).1
  · intro offset
    have hnothing : Room [] rest := .nil hfresh
    exact gives_blank_iff.mpr hnothing
  · intro gap hgap offset
    have hall : Pieces (gap ++ taken) rest := (hgap.pieces (taken ++ rest)).append hpieces
    rw [← List.append_assoc]
    exact gives_blank_iff.mpr (room_iff.mpr ⟨hall, hfresh⟩)

/-- A comment with slashes and a carriage return in it, before a slash that stands alone: an empty
comment in front of it is passed over as well. -/
theorem blank_takes_all_room_slashes :
    Pieces " //a//\r\n".toList "/x".toList ∧ Fresh "/x".toList ∧ IsGap "//\n".toList ∧
      Gives blank ⟨0, "//\n //a//\r\n/x".toList⟩ () ⟨11, "/x".toList⟩ := by
  have hcomment : IsPiece "//a//\r".toList "\n/x".toList :=
    @IsPiece.comment ['a', '/', '/', '\r'] _ (by decide) (by decide)
  have hfeed : Pieces "\n".toList "/x".toList := .cons (.blank (by decide)) .nil
  have hpieces : Pieces " //a//\r\n".toList "/x".toList :=
    .cons (.blank (by decide)) (.cons hcomment hfeed)
  have hfresh : Fresh "/x".toList := ⟨by rintro c ⟨⟩; decide, by decide⟩
  have hgap : IsGap "//\n".toList := @IsGap.comment [] [] (by decide) .nil
  refine ⟨hpieces, hfresh, hgap, ?_⟩
  obtain ⟨taken, rest, htext, -, -, -, -, hunique, -, hgaps⟩ :=
    blank_takes_all_room " //a//\r\n/x".toList
  obtain rfl := hunique _ _ rfl hpieces hfresh
  have hsplit : " //a//\r\n".toList ++ "/x".toList = " //a//\r\n".toList ++ rest := htext
  obtain rfl := List.append_cancel_left hsplit
  exact hgaps _ hgap 0

/-- A comment at the end of a text takes in what is put behind it, so it is no gap. -/
example : blank.readFrom "//".toList = some ((), ⟨2, []⟩) ∧
    blank.readFrom ("//".toList ++ "x".toList) = some ((), ⟨3, []⟩) := ⟨rfl, rfl⟩

end InteractionGraph.Grammar
