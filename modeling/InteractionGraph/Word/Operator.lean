/-!
# Binary operators

The sixteen operators on 32-bit integers.  An operator has a code, which a word carries in
its label field, and a symbol, which is how the text of a term spells it.
-/

namespace InteractionGraph

/-- A binary operator on 32-bit integers. -/
inductive Operator where
  | add
  | sub
  | mul
  | div
  | mod
  | eq
  | ne
  | and
  | or
  | xor
  | lsh
  | rsh
  | lt
  | lte
  | gt
  | gte
  deriving DecidableEq

namespace Operator

/-- Every operator, in the order of the codes. -/
def all : List Operator :=
  [add, sub, mul, div, mod, eq, ne, and, or, xor, lsh, rsh, lt, lte, gt, gte]

/-- The number that stands for an operator in the label of a word. -/
def code : Operator → Nat
  | add => 0
  | sub => 1
  | mul => 2
  | div => 3
  | mod => 4
  | eq => 5
  | ne => 6
  | and => 7
  | or => 8
  | xor => 9
  | lsh => 10
  | rsh => 11
  | lt => 12
  | lte => 13
  | gt => 14
  | gte => 15

/-- The operator of a given code, if the code belongs to one. -/
def ofCode? (code : Nat) : Option Operator :=
  all.find? fun operator => operator.code == code

/-- The name of an operator. -/
def name : Operator → String
  | add => "ADD"
  | sub => "SUB"
  | mul => "MUL"
  | div => "DIV"
  | mod => "MOD"
  | eq => "EQ"
  | ne => "NE"
  | and => "AND"
  | or => "OR"
  | xor => "XOR"
  | lsh => "LSH"
  | rsh => "RSH"
  | lt => "LT"
  | lte => "LTE"
  | gt => "GT"
  | gte => "GTE"

/-- The operator of a given name. -/
def ofName? (name : String) : Option Operator :=
  all.find? fun operator => operator.name == name

/-- How the text of a term spells an operator, after the opening parenthesis. -/
def symbol : Operator → String
  | add => "+"
  | sub => "-"
  | mul => "*"
  | div => "/"
  | mod => "%"
  | eq => "=="
  | ne => "!="
  | and => "&"
  | or => "|"
  | xor => "^"
  | lsh => "<<"
  | rsh => ">>"
  | lt => "<"
  | lte => "<="
  | gt => ">"
  | gte => ">="

/-! ## Reading a code back -/

theorem code_lt (operator : Operator) : operator.code < 16 := by
  cases operator <;> decide

@[simp]
theorem ofCode?_code (operator : Operator) : ofCode? operator.code = some operator := by
  cases operator <;> rfl

theorem ofCode?_eq_some_iff {code : Nat} {operator : Operator} :
    ofCode? code = some operator ↔ operator.code = code := by
  constructor
  · intro h
    simpa using List.find?_some h
  · rintro rfl
    exact ofCode?_code operator

@[simp]
theorem ofName?_name (operator : Operator) : ofName? operator.name = some operator := by
  cases operator <;> rfl

end Operator

end InteractionGraph
