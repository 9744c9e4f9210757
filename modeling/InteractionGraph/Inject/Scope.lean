import InteractionGraph.Word.Basic
import Std.Data.TreeMap.Basic

/-!
# Scopes

A term is written into a heap in one pass, so a variable may be used before its binder comes
up.  A `Scope` keeps for each name either the cells of the uses that still wait for a binder,
or the word of the last binder that came up, which is what every further use is a copy of.
-/

namespace InteractionGraph

/-- What is known of a name. -/
inductive Binding where
  /-- The name was used in these cells, the oldest first, and no binder of it came up. -/
  | pending (sites : List Nat)
  /-- The last binder of the name that came up. -/
  | bound (word : Word)
  deriving DecidableEq

/-- What is known of every name that came up. -/
abbrev Scope : Type := Std.TreeMap String Binding

namespace Scope

/-- The scope before anything came up. -/
def empty : Scope := ∅

/-- The cells that wait for a binder of a name. -/
def sites (scope : Scope) (name : String) : List Nat :=
  match scope[name]? with
  | some (.pending sites) => sites
  | _ => []

/-- The scope after a use of `name` in a cell that has to wait for a binder. -/
def addSite (scope : Scope) (name : String) (address : Nat) : Scope :=
  scope.insert name (.pending (scope.sites name ++ [address]))

/-- The scope after a binder of `name`. -/
def bind (scope : Scope) (name : String) (word : Word) : Scope :=
  scope.insert name (.bound word)

/-- Whether a name still waits for its binder. -/
def isPending (binding : Binding) : Bool :=
  match binding with
  | .pending _ => true
  | .bound _ => false

/-- The least of the names that wait for a binder. -/
def unbound? (scope : Scope) : Option String :=
  (scope.toList.find? fun entry => isPending entry.2).map Prod.fst

end Scope

end InteractionGraph
