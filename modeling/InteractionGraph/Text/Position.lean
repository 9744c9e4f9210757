/-!
# Offsets and positions

A place in a text is either an *offset*, which counts the bytes of its UTF-8 form that come
before it, or a *position*, a line and a column that both count from one.  Lines end after a
line feed and after nothing else, and columns count characters.

`splitAt?` cuts a text at an offset.  It fails where no character begins, that is inside a
character or behind the end, and `Position.ofOffset` takes such an offset for the end.
-/

namespace InteractionGraph.Text

/-- The number of bytes of a text in UTF-8. -/
def byteLength : List Char → Nat
  | [] => 0
  | c :: text => c.utf8Size + byteLength text

/-- The characters before an offset and those from it on, if a character begins there or the
text ends there. -/
def splitAt? : Nat → List Char → Option (List Char × List Char)
  | 0, text => some ([], text)
  | _ + 1, [] => none
  | offset + 1, c :: text =>
    if c.utf8Size ≤ offset + 1 then
      (splitAt? (offset + 1 - c.utf8Size) text).map fun parts => (c :: parts.1, parts.2)
    else none

/-- The characters between two offsets. -/
def slice? (start stop : Nat) (text : List Char) : Option (List Char) := do
  let (before, _) ← splitAt? stop text
  let (_, part) ← splitAt? start before
  return part

/-- The character that begins at an offset. -/
def charAt? (offset : Nat) (text : List Char) : Option Char := do
  let (_, rest) ← splitAt? offset text
  rest.head?

/-! ## Positions -/

/-- A line and a column, both counted from one. -/
structure Position where
  line : Nat
  column : Nat
  deriving DecidableEq

namespace Position

/-- The beginning of a text. -/
def start : Position := ⟨1, 1⟩

/-- The position behind a character. -/
def advance (position : Position) (c : Char) : Position :=
  if c = '\n' then ⟨position.line + 1, 1⟩ else ⟨position.line, position.column + 1⟩

/-- The position behind a text. -/
def behind (text : List Char) : Position := text.foldl advance start

/-- The position of an offset; an offset at which no character begins has the position of the
end. -/
def ofOffset (text : List Char) (offset : Nat) : Position :=
  match splitAt? offset text with
  | some (before, _) => behind before
  | none => behind text

end Position

/-! ## Cutting at an offset -/

theorem append_of_splitAt? {offset : Nat} {text before rest : List Char}
    (h : splitAt? offset text = some (before, rest)) :
    before ++ rest = text ∧ byteLength before = offset := by
  fun_induction splitAt? offset text generalizing before rest with
  | case1 text =>
    obtain ⟨rfl, rfl⟩ := by simpa using h
    exact ⟨rfl, rfl⟩
  | case2 => simp at h
  | case3 offset c text hc ih =>
    obtain ⟨⟨before', rest'⟩, hsplit, heq⟩ := Option.map_eq_some_iff.mp h
    obtain ⟨rfl, rfl⟩ := by simpa using heq
    obtain ⟨happend, hlength⟩ := ih hsplit
    refine ⟨by simp [happend], ?_⟩
    rw [byteLength, hlength]
    omega
  | case4 => simp at h

theorem splitAt?_byteLength_append (before rest : List Char) :
    splitAt? (byteLength before) (before ++ rest) = some (before, rest) := by
  induction before with
  | nil => cases rest <;> rfl
  | cons c before ih =>
    have hpos : 0 < c.utf8Size := Char.utf8Size_pos c
    rw [byteLength, List.cons_append]
    obtain ⟨n, hn⟩ : ∃ n, c.utf8Size + byteLength before = n + 1 :=
      ⟨c.utf8Size + byteLength before - 1, by omega⟩
    have hrest : n + 1 - c.utf8Size = byteLength before := by omega
    rw [hn, splitAt?, if_pos (by omega), hrest, ih]
    rfl

end InteractionGraph.Text
