import InteractionGraph.Parse.Basic
import Mathlib.Data.List.Infix

/-!
# Places in a text

An offset may fall inside a character or behind the end.  A `Place` cannot: it is the text cut in
two, and its offset is the length of the first part.  Spans and cursors of a text are given by its
places, and a place is known by its offset (`Place.ext_of_offset`).
-/

namespace InteractionGraph.Text

open Parse

theorem byteLength_append (first second : List Char) :
    byteLength (first ++ second) = byteLength first + byteLength second := by
  induction first with
  | nil => simp [byteLength]
  | cons c first ih =>
    rw [List.cons_append, byteLength, byteLength, ih, Nat.add_assoc]

theorem byteLength_pos {letters : List Char} (h : letters ≠ []) : 0 < byteLength letters := by
  obtain ⟨c, others, rfl⟩ := List.exists_cons_of_ne_nil h
  have hpos := c.utf8Size_pos
  rw [byteLength]
  omega

/-- A place in a text: the characters before it and those from it on. -/
@[ext]
structure Place (text : List Char) where
  before : List Char
  rest : List Char
  append : before ++ rest = text

namespace Place

variable {text : List Char} {place other : Place text}

/-- The beginning of a text. -/
def start (text : List Char) : Place text := ⟨[], text, rfl⟩

/-- The bytes before a place. -/
def offset (place : Place text) : Nat := byteLength place.before

/-- The cursor at a place. -/
def cursor (place : Place text) : Cursor := ⟨place.offset, place.rest⟩

/-- The place behind some of the characters that follow. -/
def behind (place : Place text) {taken rest : List Char} (h : place.rest = taken ++ rest) :
    Place text :=
  ⟨place.before ++ taken, rest, by rw [List.append_assoc, ← h, place.append]⟩

/-- The place behind the next character; at the end of the text, the place itself. -/
def next (place : Place text) : Place text :=
  place.behind (List.take_append_drop 1 place.rest).symm

/-- The span of the next character, which is empty at the end of the text. -/
def nextSpan (place : Place text) : Span := ⟨place.offset, place.next.offset⟩

/-- The place is directly behind the character. -/
def Follows (place : Place text) (c : Char) : Prop := place.before.getLast? = some c

@[simp]
theorem rest_cursor : place.cursor.rest = place.rest := rfl

@[simp]
theorem rest_behind {taken rest : List Char} (h : place.rest = taken ++ rest) :
    (place.behind h).rest = rest := rfl

@[simp]
theorem offset_behind {taken rest : List Char} (h : place.rest = taken ++ rest) :
    (place.behind h).offset = place.offset + byteLength taken :=
  byteLength_append _ _

/-! ## Places and offsets -/

/-- To cut the text at the offset of a place gives the place back. -/
theorem splitAt?_offset (place : Place text) :
    splitAt? place.offset text = some (place.before, place.rest) := by
  have h := splitAt?_byteLength_append place.before place.rest
  rwa [place.append] at h

theorem ext_of_offset (h : place.offset = other.offset) : place = other := by
  have hsplit := place.splitAt?_offset
  rw [h, other.splitAt?_offset, Option.some_inj, Prod.mk.injEq] at hsplit
  exact Place.ext hsplit.1.symm hsplit.2.symm

/-- A text is cut in one way only at the offset of a place. -/
theorem eq_of_append {before after : List Char} (h : text = before ++ after)
    (hoffset : byteLength before = place.offset) : before = place.before ∧ after = place.rest := by
  have hplace : (⟨before, after, h.symm⟩ : Place text) = place := ext_of_offset hoffset
  exact ⟨congrArg Place.before hplace, congrArg Place.rest hplace⟩

theorem offset_add_byteLength_rest (place : Place text) :
    place.offset + byteLength place.rest = byteLength text := by
  have h := byteLength_append place.before place.rest
  rw [place.append] at h
  exact h.symm

theorem offset_le (place : Place text) : place.offset ≤ byteLength text := by
  have h := place.offset_add_byteLength_rest
  omega

theorem offset_eq_byteLength_iff : place.offset = byteLength text ↔ place.rest = [] := by
  have h := place.offset_add_byteLength_rest
  constructor
  · intro heq
    by_contra hne
    have hpos := byteLength_pos hne
    omega
  · intro hnil
    rw [hnil] at h
    exact h

/-- Of two places, one is before the other, with the characters between them. -/
theorem exists_append_of_le (h : place.offset ≤ other.offset) :
    ∃ taken, other.before = place.before ++ taken ∧ place.rest = taken ++ other.rest := by
  have hplace : place.before <+: text := ⟨_, place.append⟩
  have hother : other.before <+: text := ⟨_, other.append⟩
  rcases List.prefix_or_prefix_of_prefix hplace hother with ⟨taken, htaken⟩ | ⟨taken, htaken⟩
  · refine ⟨taken, htaken.symm, ?_⟩
    have happend := place.append.trans other.append.symm
    rw [← htaken, List.append_assoc] at happend
    exact List.append_cancel_left happend
  · have hlength := congrArg byteLength htaken
    rw [byteLength_append] at hlength
    have heq : place = other := ext_of_offset (by rw [offset, offset] at *; omega)
    exact ⟨[], by rw [heq, List.append_nil], by rw [heq, List.nil_append]⟩

theorem length_rest_lt (h : place.offset < other.offset) :
    other.rest.length < place.rest.length := by
  obtain ⟨taken, hbefore, hrest⟩ := exists_append_of_le h.le
  have hne : taken ≠ [] := by
    rintro rfl
    rw [offset, offset, hbefore, List.append_nil] at h
    exact Nat.lt_irrefl _ h
  have hpos := List.length_pos_iff.mpr hne
  rw [hrest, List.length_append]
  omega

/-! ## The next character -/

theorem before_next {c : Char} {rest : List Char} (h : place.rest = c :: rest) :
    place.next.before = place.before ++ [c] := by
  simp [next, behind, h]

theorem rest_next {c : Char} {rest : List Char} (h : place.rest = c :: rest) :
    place.next.rest = rest := by
  simp [next, h]

theorem offset_next {c : Char} {rest : List Char} (h : place.rest = c :: rest) :
    place.next.offset = place.offset + c.utf8Size := by
  rw [offset, before_next h, byteLength_append]
  rfl

theorem offset_lt_next {c : Char} {rest : List Char} (h : place.rest = c :: rest) :
    place.offset < place.next.offset := by
  have hpos := c.utf8Size_pos
  rw [offset_next h]
  omega

theorem offset_le_next (place : Place text) : place.offset ≤ place.next.offset := by
  rw [next, offset_behind]
  exact Nat.le_add_right _ _

theorem next_of_nil (h : place.rest = []) : place.next = place := by
  ext1 <;> simp [next, behind, h]

theorem follows_next {c : Char} {rest : List Char} (h : place.rest = c :: rest) :
    place.next.Follows c := by
  rw [Follows, before_next h, List.getLast?_concat]

/-- To read a character is to go on to the next place. -/
theorem advance_cursor {c : Char} {rest : List Char} (h : place.rest = c :: rest) :
    place.cursor.advance c rest = place.next.cursor := by
  rw [Cursor.advance, cursor, cursor, offset_next h, rest_next h]

theorem nextSpan_cursor : place.cursor.nextSpan = place.nextSpan := by
  rw [nextSpan]
  cases hrest : place.rest with
  | nil =>
    rw [next_of_nil hrest]
    simp [Cursor.nextSpan, Cursor.emptySpan, cursor, hrest]
  | cons c rest =>
    rw [offset_next hrest]
    simp [Cursor.nextSpan, Cursor.spanOf, cursor, hrest]

/-- The characters between two places are those that were taken. -/
theorem slice?_of_append {taken : List Char} (h : other.before = place.before ++ taken) :
    slice? place.offset other.offset text = some taken := by
  have hbefore : splitAt? place.offset other.before = some (place.before, taken) := by
    rw [h]
    exact splitAt?_byteLength_append place.before taken
  simp [slice?, other.splitAt?_offset, hbefore]

theorem charAt?_offset (place : Place text) : charAt? place.offset text = place.rest.head? := by
  simp [charAt?, place.splitAt?_offset]

theorem Follows.unique {c d : Char} (h : place.Follows c) (hother : place.Follows d) : c = d := by
  rw [Follows, hother] at h
  exact (Option.some.inj h).symm

theorem offset_of_append {taken : List Char} (h : other.before = place.before ++ taken) :
    other.offset = place.offset + byteLength taken := by
  rw [offset, h, byteLength_append]
  rfl

theorem offset_lt_of_append {taken : List Char} (h : other.before = place.before ++ taken)
    (hne : taken ≠ []) : place.offset < other.offset := by
  have hpos := byteLength_pos hne
  rw [offset_of_append h]
  omega

theorem eq_of_append_nil (h : other.before = place.before ++ []) : other = place :=
  ext_of_offset (offset_of_append h)

/-- Behind characters that were taken, the place follows the last of them. -/
theorem follows_of_append {taken : List Char} {c : Char}
    (h : other.before = place.before ++ taken) (hlast : taken.getLast? = some c) :
    other.Follows c := by
  rw [Follows, h, List.getLast?_append, hlast]
  rfl

end Place

end InteractionGraph.Text
