import InteractionGraph.Grammar.Term
import InteractionGraph.Proofs.Tree.Nodes

/-!
# How terms are spelled

A text spells a term in two steps.  `Derives` gives the tokens of the term by the rules of the
grammar, and `Spells` lays tokens out as a text, with a gap before each of them and behind the last.

The rules leave some freedom.  A number may have leading zeros, a constructor goes by any name that
the table resolves to its id, the arms of a match come in any order that sorts to the one of the
term, and several applications may share a list.  There is one restriction: a list of `*` and two
arguments is not the application of an erasure, since it reads as a product.

Gaps are free but for two cases (`Apart`).  Two characters of names never touch across tokens, and
the operator `/` does not touch a slash: with the comment that this would begin, the two would read
as a comment.

`Writable` are the terms that have a spelling at all.
-/

namespace InteractionGraph.Grammar

open Text

/-! ## Statements about characters

They are decided by looking at the characters in question, not at all characters there are. -/

scoped instance (priority := 2000) decidableForallMemList (p : Char → Prop) [DecidablePred p]
    (letters : List Char) : Decidable (∀ c ∈ letters, p c) :=
  List.decidableBAll p letters

scoped instance (priority := 2000) decidableForallMemOption (p : Char → Prop) [DecidablePred p]
    (c? : Option Char) : Decidable (∀ c ∈ c?, p c) :=
  Option.decidableForallMem c?

/-! ## Tokens and gaps -/

/-- A token, which is the characters that it is written with. -/
abbrev Token : Type := List Char

/-- Room between tokens: white space and comments, each with the line feed that ends it. -/
inductive IsGap : List Char → Prop where
  | nil : IsGap []
  | blank {c : Char} {gap : List Char} : isBlank c = true → IsGap gap → IsGap (c :: gap)
  | comment {body gap : List Char} :
    '\n' ∉ body → IsGap gap → IsGap ('/' :: '/' :: (body ++ '\n' :: gap))

/-- The text may follow the token: no two characters of names touch, and no slash follows the
operator `/`. -/
def Apart (token : Token) (text : List Char) : Prop :=
  (∀ c ∈ token.getLast?, ∀ d ∈ text.head?, isNameChar c = true → isNameChar d = false) ∧
    (token = ['/'] → '/' ∉ text.head?)

instance (token : Token) (text : List Char) : Decidable (Apart token text) :=
  inferInstanceAs (Decidable (_ ∧ _))

/-- The text is the tokens in their order, with gaps before, between and behind them. -/
inductive Spells : List Token → List Char → Prop where
  | nil {gap : List Char} : IsGap gap → Spells [] gap
  | cons {gap text : List Char} {token : Token} {tokens : List Token} :
    IsGap gap → Apart token text → Spells tokens text →
      Spells (token :: tokens) (gap ++ (token ++ text))

/-! ## Names and numbers -/

/-- A name of a variable, a binder or a definition. -/
def IsName (name : String) : Prop :=
  name.toList ≠ [] ∧ ∀ c ∈ name.toList, isNameChar c = true

/-- A decimal numeral of a 32-bit word, which may have leading zeros. -/
def IsNumeral (digits : List Char) (value : UInt32) : Prop :=
  digits ≠ [] ∧ (∀ c ∈ digits, c.isDigit = true) ∧ Nat.ofDigitChars 10 digits 0 = value.toNat

/-- The letters, which may be none, are a name of the constructor with this id. -/
def NamesConstructor (table : ConstructorTable) (letters : List Char) (id : UInt32) : Prop :=
  (∀ c ∈ letters, isNameChar c = true) ∧ table.resolve (String.ofList letters) = some id

/-- The letters are a name of the constructor with this id, or the one that stands for all others
and this is its id. -/
def NamesArm (table : ConstructorTable) (letters : List Char) (id : UInt32) : Prop :=
  if letters = ['_'] then id = Tree.wildcard else NamesConstructor table letters id

/-! ## The tokens of a term -/

/-- An arm of a match as it is written: the letters that stand for its id, and the tokens of its
body. -/
structure WrittenArm where
  letters : List Char
  id : UInt32
  body : Tree
  bodyTokens : List Token

namespace WrittenArm

/-- The arm that is written. -/
def arm (written : WrittenArm) : UInt32 × Tree := (written.id, written.body)

/-- The tokens of an arm. -/
def tokens (written : WrittenArm) : List Token :=
  ('#' :: written.letters) :: [':'] :: written.bodyTokens

end WrittenArm

/-- The tokens are a way to write the term. -/
inductive Derives (table : ConstructorTable) : Tree → List Token → Prop where
  | era : Derives table .era [['*']]
  | lam {name : String} {body : Tree} {tokens : List Token} :
    IsName name → Derives table body tokens →
      Derives table (.lam name body) (['λ'] :: name.toList :: tokens)
  | app {function : Tree} {tokens : List Token} {arguments : List (Tree × List Token)} :
    Derives table function tokens → (∀ argument ∈ arguments, Derives table argument.1 argument.2) →
      arguments ≠ [] → ¬ (function = .era ∧ arguments.length = 2) →
      Derives table (function.applyAll (arguments.map Prod.fst))
        (['('] :: (tokens ++ (arguments.flatMap Prod.snd ++ [[')']])))
  | sup {label : UInt32} {digits : List Char} {left right : Tree} {first second : List Token} :
    IsNumeral digits label → Derives table left first → Derives table right second →
      Derives table (.sup label left right)
        (('&' :: digits) :: ['{'] :: (first ++ (second ++ [['}']])))
  | dup {label : UInt32} {digits : List Char} {dp0 dp1 : String} {value body : Tree}
    {first second : List Token} :
    IsNumeral digits label → IsName dp0 → IsName dp1 → Derives table value first →
      Derives table body second →
      Derives table (.dup label dp0 dp1 value body)
        (['!'] :: ('&' :: digits) :: ['{'] :: dp0.toList :: dp1.toList :: ['}'] :: ['='] ::
          (first ++ second))
  | ref {name : String} : IsName name → Derives table (.ref name none) [('@' :: name.toList)]
  | var {name : String} :
    IsName name → ¬ (∀ c ∈ name.toList, c.isDigit = true) → Derives table (.var name) [name.toList]
  | ctr {id : UInt32} {letters : List Char} {fields : List (Tree × List Token)} :
    NamesConstructor table letters id → (∀ field ∈ fields, Derives table field.1 field.2) →
      Derives table (.ctr id (fields.map Prod.fst))
        (('#' :: letters) :: ['{'] :: (fields.flatMap Prod.snd ++ [['}']]))
  | mat {scrutinee : Tree} {tokens : List Token} {arms : List WrittenArm} :
    Derives table scrutinee tokens → (∀ arm ∈ arms, NamesArm table arm.letters arm.id) →
      (∀ arm ∈ arms, Derives table arm.body arm.bodyTokens) →
      Derives table (.matching scrutinee (arms.map WrittenArm.arm))
        (['~'] :: (tokens ++ ['{'] :: (arms.flatMap WrittenArm.tokens ++ [['}']])))
  | op2 {operator : Operator} {left right : Tree} {first second : List Token} :
    Derives table left first → Derives table right second →
      Derives table (.op2 operator left right)
        (['('] :: operator.symbol.toList :: (first ++ (second ++ [[')']])))
  | u32 {value : UInt32} {digits : List Char} :
    IsNumeral digits value → Derives table (.u32 value) [digits]

/-- The text is a spelling of the term. -/
def IsSpelling (table : ConstructorTable) (tree : Tree) (text : List Char) : Prop :=
  ∃ tokens, Derives table tree tokens ∧ Spells tokens text

/-! ## Terms that can be written -/

/-- What a node has to be like for a term to be written. -/
def NodeWritable (table : ConstructorTable) : Tree → Prop
  | .lam name _ => IsName name
  | .dup _ first second _ _ => IsName first ∧ IsName second
  | .ref name id? => IsName name ∧ id? = none
  | .var name => IsName name ∧ ¬ ∀ c ∈ name.toList, c.isDigit = true
  | .ctr id _ => ∃ letters, NamesConstructor table letters id
  | .mat _ arms =>
    arms.Pairwise (fun first second => first.1 ≤ second.1) ∧
      ∀ arm ∈ arms, ∃ letters, NamesArm table letters arm.1
  | .era | .app _ _ | .sup _ _ _ | .op2 _ _ _ | .u32 _ => True

/-- The term can be written: its names are names, no variable looks like a number, its references
are not linked, its arms are sorted, and each of its constructors has a name. -/
def Writable (table : ConstructorTable) (tree : Tree) : Prop :=
  ∀ node ∈ tree.nodes, NodeWritable table node

end InteractionGraph.Grammar
