import InteractionGraph.Tree.Basic

/-!
# Visiting the references of a term

`Tree.visitReferences` calls a visitor on every reference of a term: depth first, a value
before the body it is bound in, a scrutinee before the arms, fields and arms in their order.
The visitor sees the name of the reference and the id it has, leaves an id in its place,
carries a state along and may fail.  A failure ends the walk: the reference that failed keeps
what the visitor left there, and those behind it stay as they are.
-/

namespace InteractionGraph

/-- What a visitor or a walk leaves: its subject as it is afterwards, a failure if there was
one, and the state. -/
structure Visit (ε σ α : Type) where
  outcome : α
  failure? : Option ε
  state : σ

/-- What a walk does at a reference. -/
abbrev ReferenceVisitor (ε σ : Type) : Type :=
  String → Option UInt32 → σ → Visit ε σ (Option UInt32)

namespace Visit

variable {ε σ α β γ : Type}

/-- The same visit with its subject put into a larger one. -/
def map (build : α → β) (visit : Visit ε σ α) : Visit ε σ β :=
  ⟨build visit.outcome, visit.failure?, visit.state⟩

/-- Goes on with the visit `next` of `second` after a visit that did not fail, and leaves
`second` as it is after one that did. -/
def andThen (build : α → β → γ) (visit : Visit ε σ α) (second : β)
    (next : σ → Visit ε σ β) : Visit ε σ γ :=
  match visit.failure? with
  | some failure => ⟨build visit.outcome second, some failure, visit.state⟩
  | none => (next visit.state).map (build visit.outcome)

end Visit

namespace Tree

variable {ε σ : Type}

mutual

/-- Visits every reference of a term. -/
def visitReferences (visitor : ReferenceVisitor ε σ) : Tree → σ → Visit ε σ Tree
  | .era, state => ⟨.era, none, state⟩
  | .var name, state => ⟨.var name, none, state⟩
  | .u32 value, state => ⟨.u32 value, none, state⟩
  | .ref name id?, state => (visitor name id? state).map (.ref name)
  | .lam name body, state => (visitReferences visitor body state).map (.lam name)
  | .app function argument, state =>
    (visitReferences visitor function state).andThen .app argument
      (visitReferences visitor argument)
  | .sup label left right, state =>
    (visitReferences visitor left state).andThen (.sup label) right
      (visitReferences visitor right)
  | .dup label first second value body, state =>
    (visitReferences visitor value state).andThen (.dup label first second) body
      (visitReferences visitor body)
  | .op2 operator left right, state =>
    (visitReferences visitor left state).andThen (.op2 operator) right
      (visitReferences visitor right)
  | .ctr id fields, state => (visitFields visitor fields state).map (.ctr id)
  | .mat scrutinee arms, state =>
    (visitReferences visitor scrutinee state).andThen .mat arms
      (visitArms visitor arms)

/-- Visits every reference of the fields of a constructor. -/
def visitFields (visitor : ReferenceVisitor ε σ) : List Tree → σ → Visit ε σ (List Tree)
  | [], state => ⟨[], none, state⟩
  | field :: fields, state =>
    (visitReferences visitor field state).andThen List.cons fields
      (visitFields visitor fields)

/-- Visits every reference of the arms of a match. -/
def visitArms (visitor : ReferenceVisitor ε σ) :
    List (UInt32 × Tree) → σ → Visit ε σ (List (UInt32 × Tree))
  | [], state => ⟨[], none, state⟩
  | (id, body) :: arms, state =>
    (visitReferences visitor body state).andThen (fun body arms => (id, body) :: arms) arms
      (visitArms visitor arms)

end

/-- Numbers references in the order of the walk and lists what each was before.  The walk ends
at a reference that comes when `limit?` of them are numbered. -/
def numberReference (limit? : Option Nat) :
    ReferenceVisitor Unit (List (String × Option UInt32)) := fun name id? seen =>
  if limit?.any (· ≤ seen.length) then ⟨id?, some (), seen⟩
  else ⟨some (UInt32.ofNat seen.length), none, seen ++ [(name, id?)]⟩

end Tree

end InteractionGraph
