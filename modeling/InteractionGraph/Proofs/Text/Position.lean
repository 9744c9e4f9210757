import InteractionGraph.Proofs.Parse.Place
import Mathlib.Data.List.Induction
import Mathlib.Data.List.TakeWhile

/-!
# Positions tell offsets apart

A position is counted up, character by character, and so it is not plain from it which offset it
stands for.  It grows with each character, though: by a column, or by a line and then the column
starts anew (`Position.before_advance`).  So positions are in the order of the offsets that they
stand for, and two offsets have one position only if one of them is not at a character.

What a position says is said of the characters before it alone: how many lines have ended, and how
many characters there are since (`Position.Counts`).
-/

namespace InteractionGraph.Text

variable {text before after : List Char} {offset : Nat}

/-! ## Offsets -/

/-- A character of the text begins at the offset, or the text ends there. -/
def IsBoundary (text : List Char) (offset : Nat) : Prop :=
  ∃ before after, text = before ++ after ∧ byteLength before = offset

/-- The offset is behind the first byte of a character and before the next character. -/
def IsInside (text : List Char) (offset : Nat) : Prop :=
  ∃ before c after, text = before ++ c :: after ∧ byteLength before < offset ∧
    offset < byteLength before + c.utf8Size

theorem Place.isBoundary (place : Place text) : IsBoundary text place.offset :=
  ⟨place.before, place.rest, place.append.symm, rfl⟩

theorem IsBoundary.exists_place (h : IsBoundary text offset) :
    ∃ place : Place text, place.offset = offset := by
  obtain ⟨before, after, hsplit, hoffset⟩ := h
  exact ⟨⟨before, after, hsplit.symm⟩, hoffset⟩

theorem Place.not_isInside (place : Place text) : ¬ IsInside text place.offset := by
  rintro ⟨before, c, after, hsplit, hlt, hgt⟩
  let first : Place text := ⟨before, c :: after, hsplit.symm⟩
  have hle : first.offset ≤ place.offset := hlt.le
  obtain ⟨taken, hbefore, hrest⟩ := exists_append_of_le hle
  have hoffset : place.offset = byteLength before + byteLength taken := offset_of_append hbefore
  cases taken with
  | nil => exact hlt.ne (by rw [hoffset, byteLength, Nat.add_zero])
  | cons d taken =>
    -- What is behind the first place begins with the character, so all of it was taken.
    have hcons : c :: after = d :: (taken ++ place.rest) := hrest
    obtain ⟨rfl, -⟩ := List.cons_eq_cons.mp hcons
    rw [byteLength] at hoffset
    omega

/-- An offset is at a character, inside of one, or behind the end. -/
theorem isBoundary_or (text : List Char) (offset : Nat) :
    IsBoundary text offset ∨ byteLength text < offset ∨ IsInside text offset := by
  induction text generalizing offset with
  | nil =>
    rcases Nat.eq_zero_or_pos offset with rfl | hpos
    · exact .inl ⟨[], [], rfl, rfl⟩
    · exact .inr (.inl hpos)
  | cons c text ih =>
    rcases Nat.eq_zero_or_pos offset with rfl | hpos
    · exact .inl ⟨[], c :: text, rfl, rfl⟩
    · by_cases hinside : offset < c.utf8Size
      · refine .inr (.inr ⟨[], c, text, rfl, hpos, ?_⟩)
        rwa [byteLength, Nat.zero_add]
      · obtain ⟨rest, rfl⟩ := Nat.exists_eq_add_of_le (Nat.le_of_not_lt hinside)
        rcases ih rest with ⟨before, after, rfl, rfl⟩ | hbehind | ⟨before, d, after, rfl, hlt, hgt⟩
        · exact .inl ⟨c :: before, after, rfl, rfl⟩
        · exact .inr (.inl (Nat.add_lt_add_left hbehind _))
        · refine .inr (.inr ⟨c :: before, d, after, rfl, Nat.add_lt_add_left hlt _, ?_⟩)
          rw [byteLength, Nat.add_assoc]
          exact Nat.add_lt_add_left hgt _

theorem not_isBoundary_iff :
    ¬ IsBoundary text offset ↔ byteLength text < offset ∨ IsInside text offset := by
  refine ⟨(isBoundary_or text offset).resolve_left, ?_⟩
  rintro h hboundary
  obtain ⟨place, rfl⟩ := hboundary.exists_place
  rcases h with hbehind | hinside
  · exact Nat.not_lt_of_le place.offset_le hbehind
  · exact place.not_isInside hinside

theorem splitAt?_eq_none_of_not_isBoundary (h : ¬ IsBoundary text offset) :
    splitAt? offset text = none := by
  cases hsplit : splitAt? offset text with
  | none => rfl
  | some parts =>
    obtain ⟨happend, hlength⟩ := append_of_splitAt? hsplit
    exact absurd ⟨parts.1, parts.2, happend.symm, hlength⟩ h

/-! ## Positions -/

namespace Position

variable {position middle other : Position}

/-- The one position is before the other: on a line before, or on the same line and to the left. -/
def Before (position other : Position) : Prop :=
  position.line < other.line ∨ position.line = other.line ∧ position.column < other.column

/-- The position is the one behind the characters: on the line behind all line feeds among them, and
in the column behind all characters that come after the last line feed, or after the start. -/
structure Counts (position : Position) (before : List Char) : Prop where
  line_eq : position.line = before.count '\n' + 1
  column_eq : ∃ lines last, before = lines ++ last ∧ (∀ c ∈ lines.getLast?, c = '\n') ∧
    '\n' ∉ last ∧ position.column = last.length + 1

theorem Before.trans (h : position.Before middle) (hother : middle.Before other) :
    position.Before other := by
  unfold Before at *
  omega

theorem Before.irrefl (position : Position) : ¬ position.Before position := by
  unfold Before
  omega

theorem before_advance (position : Position) (c : Char) : position.Before (position.advance c) := by
  unfold advance
  split
  · exact .inl (Nat.lt_succ_self _)
  · exact .inr ⟨rfl, Nat.lt_succ_self _⟩

/-- The position goes on with the characters that are taken. -/
theorem before_foldl_advance {taken : List Char} (hne : taken ≠ []) (position : Position) :
    position.Before (taken.foldl advance position) := by
  induction taken generalizing position with
  | nil => exact absurd rfl hne
  | cons c taken ih =>
    rw [List.foldl_cons]
    by_cases hlast : taken = []
    · subst hlast
      exact before_advance position c
    · exact (before_advance position c).trans (ih hlast _)

/-- The line counts the line feeds before, and the column the characters behind the last one. -/
theorem behind_eq (text : List Char) :
    behind text = ⟨text.count '\n' + 1, (text.reverse.takeWhile (· != '\n')).length + 1⟩ := by
  induction text using List.reverseRecOn with
  | nil => rfl
  | append_singleton text c ih =>
    rw [behind, List.foldl_concat, ← behind, ih, advance]
    by_cases hc : c = '\n'
    · subst hc
      simp
    · simp [hc]

theorem counts_behind (before : List Char) : (behind before).Counts before := by
  rw [behind_eq]
  refine ⟨rfl, (before.reverse.dropWhile (· != '\n')).reverse,
    (before.reverse.takeWhile (· != '\n')).reverse, ?_, ?_, ?_, by rw [List.length_reverse]⟩
  · rw [← List.reverse_append, List.takeWhile_append_dropWhile, List.reverse_reverse]
  · intro c hc
    rw [List.getLast?_reverse] at hc
    have hnot := List.head?_dropWhile_not (· != '\n') before.reverse
    rw [hc] at hnot
    simpa using hnot
  · intro hmem
    have hfeed := List.mem_takeWhile_imp (List.mem_reverse.mp hmem)
    simp at hfeed

theorem ofOffset_offset (place : Place text) :
    ofOffset text place.offset = behind place.before := by
  rw [ofOffset, place.splitAt?_offset]

theorem before_of_offset_lt {place other : Place text} (h : place.offset < other.offset) :
    (ofOffset text place.offset).Before (ofOffset text other.offset) := by
  obtain ⟨taken, hbefore, -⟩ := Place.exists_append_of_le h.le
  have hne : taken ≠ [] := by
    rintro rfl
    rw [Place.eq_of_append_nil hbefore] at h
    exact Nat.lt_irrefl _ h
  rw [ofOffset_offset, ofOffset_offset, hbefore, behind, behind, List.foldl_append]
  exact before_foldl_advance hne _

/-- The positions of the offsets at which a character begins or the text ends are in the order of
these offsets, so no two of them have the same.  Each counts the line feeds before it and the
characters since the last one.  All other offsets, which are inside of a character or behind the
end, have the position of the end. -/
theorem identifies_offsets (text : List Char) :
    (∀ first second, IsBoundary text first → IsBoundary text second → first < second →
        (ofOffset text first).Before (ofOffset text second)) ∧
      (∀ first second, IsBoundary text first → IsBoundary text second →
        ofOffset text first = ofOffset text second → first = second) ∧
      (∀ before after, text = before ++ after →
        (ofOffset text (byteLength before)).Counts before) ∧
      ∀ offset, (¬ IsBoundary text offset ↔ byteLength text < offset ∨ IsInside text offset) ∧
        (¬ IsBoundary text offset → ofOffset text offset = ofOffset text (byteLength text)) := by
  have hordered : ∀ first second, IsBoundary text first → IsBoundary text second →
      first < second → (ofOffset text first).Before (ofOffset text second) := by
    rintro first second hfirst hsecond hlt
    obtain ⟨place, rfl⟩ := hfirst.exists_place
    obtain ⟨other, rfl⟩ := hsecond.exists_place
    exact before_of_offset_lt hlt
  refine ⟨hordered, ?_, ?_, fun offset => ⟨not_isBoundary_iff, ?_⟩⟩
  · intro first second hfirst hsecond heq
    rcases Nat.lt_trichotomy first second with hlt | heq' | hlt
    · have hbefore := hordered first second hfirst hsecond hlt
      rw [heq] at hbefore
      exact absurd hbefore (Before.irrefl _)
    · exact heq'
    · have hbefore := hordered second first hsecond hfirst hlt
      rw [heq] at hbefore
      exact absurd hbefore (Before.irrefl _)
  · rintro before after rfl
    rw [ofOffset, splitAt?_byteLength_append]
    exact counts_behind before
  · intro hnot
    have hend := splitAt?_byteLength_append text []
    rw [List.append_nil] at hend
    rw [ofOffset, ofOffset, splitAt?_eq_none_of_not_isBoundary hnot, hend]

end Position

end InteractionGraph.Text
