/-!
# Tags of graph words

A word of the graph says in its low byte what kind of node it is.  `Tag` lists the thirteen
kinds, `Tag.code` is the byte of a kind and `Tag.ofCode?` reads the byte back.

The byte `0` is left out on purpose: a cell that was handed out and not written yet holds
the zero word, and the zero word must not read as any node.
-/

namespace InteractionGraph

/-- The kind of node that a word stands for. -/
inductive Tag where
  /-- First projection of a duplication. -/
  | dp0
  /-- Second projection of a duplication. -/
  | dp1
  /-- Variable bound by a lambda. -/
  | var
  /-- Placeholder that a binder slot holds until something is substituted for it. -/
  | sub
  /-- Reference to a top-level definition. -/
  | ref
  /-- Erasure. -/
  | era
  /-- Lambda. -/
  | lam
  /-- Application. -/
  | app
  /-- Superposition. -/
  | sup
  /-- Data constructor. -/
  | ctr
  /-- Pattern match. -/
  | mat
  /-- Application of a binary operator. -/
  | opx
  /-- Inline 32-bit integer. -/
  | w32
  deriving DecidableEq

namespace Tag

/-- Every tag, in the order of the codes. -/
def all : List Tag :=
  [dp0, dp1, var, sub, ref, era, lam, app, sup, ctr, mat, opx, w32]

/-- The byte that stands for a tag in a word. -/
def code : Tag → Nat
  | dp0 => 1
  | dp1 => 2
  | var => 3
  | sub => 4
  | ref => 5
  | era => 6
  | lam => 7
  | app => 8
  | sup => 9
  | ctr => 10
  | mat => 11
  | opx => 12
  | w32 => 13

/-- The tag that a byte stands for, if it stands for one. -/
def ofCode? (code : Nat) : Option Tag :=
  all.find? fun tag => tag.code == code

/-- The name of a tag in a printed word. -/
def name : Tag → String
  | dp0 => "DP0"
  | dp1 => "DP1"
  | var => "VAR"
  | sub => "SUB"
  | ref => "REF"
  | era => "ERA"
  | lam => "LAM"
  | app => "APP"
  | sup => "SUP"
  | ctr => "CTR"
  | mat => "MAT"
  | opx => "OPX"
  | w32 => "W32"

/-- The tag of a given name. -/
def ofName? (name : String) : Option Tag :=
  all.find? fun tag => tag.name == name

/-! ## Reading a code back -/

/-- No tag has the code of the zero word. -/
theorem code_pos (tag : Tag) : 0 < tag.code := by
  cases tag <;> decide

theorem code_lt (tag : Tag) : tag.code < 256 := by
  cases tag <;> decide

@[simp]
theorem ofCode?_code (tag : Tag) : ofCode? tag.code = some tag := by
  cases tag <;> rfl

theorem ofCode?_eq_some_iff {code : Nat} {tag : Tag} :
    ofCode? code = some tag ↔ tag.code = code := by
  constructor
  · intro h
    simpa using List.find?_some h
  · rintro rfl
    exact ofCode?_code tag

@[simp]
theorem ofName?_name (tag : Tag) : ofName? tag.name = some tag := by
  cases tag <;> rfl

end Tag

end InteractionGraph
