import InteractionGraph.Proofs.Book.Linking

/-!
# A walk over the references of a term

`Tree.visitReferences` goes through a term node by node, and stops wherever the visitor fails.  Seen
from the visitor there are no nodes: it is called on the references of the term one after the other,
and a term is no more to it than the list of them (`Tree.visitReferences_alike`).

That a walk leaves the term as it is but for the ids of references is said in two parts.
`Tree.unlinked` is the term without these ids, and `Tree.occurrences` are the references with them.
Both together are all of the term (`Tree.eq_iff_unlinked_eq`).

Which calls a walk makes cannot be seen in what it leaves, since a visitor may leave everything as
it was.  So the calls are those that `ReferenceVisitor.recording` writes down on the way.
-/

namespace InteractionGraph

variable {ε σ α β γ α' β' γ' : Type}

/-! ## Calls -/

/-- A call of a visitor: the reference and the state it was called with, and what it left. -/
structure ReferenceCall (ε σ : Type) where
  reference : String × Option UInt32
  state : σ
  visit : Visit ε σ (Option UInt32)

/-- The reference with the id that the call left in it. -/
def ReferenceCall.left (call : ReferenceCall ε σ) : String × Option UInt32 :=
  (call.reference.1, call.visit.outcome)

namespace ReferenceVisitor

/-- The visitor that does the same and writes down its calls. -/
def recording (visitor : ReferenceVisitor ε σ) :
    ReferenceVisitor ε (σ × List (ReferenceCall ε σ)) := fun name id? state =>
  let visit := visitor name id? state.1
  ⟨visit.outcome, visit.failure?, visit.state, state.2 ++ [⟨(name, id?), state.1, visit⟩]⟩

/-- The calls are calls of the visitor, each in the state that the call before it left. -/
def Ran (visitor : ReferenceVisitor ε σ) : σ → List (ReferenceCall ε σ) → σ → Prop
  | first, [], last => last = first
  | first, call :: calls, last =>
    call.state = first ∧ call.visit = visitor call.reference.1 call.reference.2 first ∧
      visitor.Ran call.visit.state calls last

/-- Calls the visitor on some references, one after the other, until it fails. -/
def visitAll (visitor : ReferenceVisitor ε σ) :
    List (String × Option UInt32) → σ → Visit ε σ (List (String × Option UInt32))
  | [], state => ⟨[], none, state⟩
  | (name, id?) :: references, state =>
    ((visitor name id? state).map (name, ·)).andThen List.cons references
      (visitor.visitAll references)

section

variable {visitor : ReferenceVisitor ε σ} {name : String} {id? : Option UInt32}
  {references unvisited : List (String × Option UInt32)} {state last : σ}
  {calls : List (ReferenceCall ε σ)} {failure : ε} {failure? : Option ε}

theorem visitAll_cons_of_some (h : (visitor name id? state).failure? = some failure) :
    visitor.visitAll ((name, id?) :: references) state =
      ⟨(name, (visitor name id? state).outcome) :: references, some failure,
        (visitor name id? state).state⟩ := by
  simp [visitAll, Visit.andThen, Visit.map, h]

theorem visitAll_cons_of_none (h : (visitor name id? state).failure? = none) :
    visitor.visitAll ((name, id?) :: references) state =
      (visitor.visitAll references (visitor name id? state).state).map
        (List.cons (name, (visitor name id? state).outcome)) := by
  simp [visitAll, Visit.andThen, Visit.map, h]

theorem visitAll_append (visitor : ReferenceVisitor ε σ)
    (references others : List (String × Option UInt32)) (state : σ) :
    visitor.visitAll (references ++ others) state =
      (visitor.visitAll references state).andThen (· ++ ·) others (visitor.visitAll others) := by
  induction references generalizing state with
  | nil => rfl
  | cons reference references ih =>
    obtain ⟨name, id?⟩ := reference
    rw [List.cons_append]
    cases hfailure : (visitor name id? state).failure? with
    | some failure =>
      rw [visitAll_cons_of_some hfailure, visitAll_cons_of_some hfailure]
      rfl
    | none =>
      rw [visitAll_cons_of_none hfailure, visitAll_cons_of_none hfailure, ih]
      simp only [Visit.andThen, Visit.map]
      split <;> rfl

theorem visitAll_singleton (visitor : ReferenceVisitor ε σ) (name : String) (id? : Option UInt32)
    (state : σ) :
    visitor.visitAll [(name, id?)] state =
      (visitor name id? state).map fun id? => [(name, id?)] := by
  cases hfailure : (visitor name id? state).failure? with
  | some failure => rw [visitAll_cons_of_some hfailure, Visit.map, hfailure]
  | none => rw [visitAll_cons_of_none hfailure, visitAll, Visit.map, Visit.map, hfailure]

/-- The visitor was called on some references, one after the other, and stopped where it failed.
The calls are all that there were, and `unvisited` are the references it did not get to. -/
structure Traced (visitor : ReferenceVisitor ε σ) (references : List (String × Option UInt32))
    (state : σ) (calls : List (ReferenceCall ε σ)) (unvisited : List (String × Option UInt32))
    (failure? : Option ε) (last : σ) : Prop where
  references_eq : references = calls.map ReferenceCall.reference ++ unvisited
  ran : visitor.Ran state calls last
  failure?_eq_none_iff : failure? = none ↔ ∀ call ∈ calls, call.visit.failure? = none
  unvisited_eq_nil : failure? = none → unvisited = []
  ends : ∀ before call after failure, calls = before ++ call :: after →
    call.visit.failure? = some failure → failure? = some failure ∧ after = []

/-- A call that fails is the last one. -/
theorem Traced.of_some (references : List (String × Option UInt32))
    (h : (visitor name id? state).failure? = some failure) :
    visitor.Traced ((name, id?) :: references) state
      [⟨(name, id?), state, visitor name id? state⟩] references (some failure)
      (visitor name id? state).state where
  references_eq := rfl
  ran := ⟨rfl, rfl, rfl⟩
  failure?_eq_none_iff := by simp [h]
  unvisited_eq_nil := nofun
  ends := by
    intro before call after error hcalls herror
    cases before with
    | nil =>
      obtain ⟨rfl, rfl⟩ := List.cons_eq_cons.mp hcalls
      exact ⟨h.symm.trans herror, rfl⟩
    | cons first before => simp at hcalls

theorem Traced.of_none (h : (visitor name id? state).failure? = none)
    (htraced : visitor.Traced references (visitor name id? state).state calls unvisited failure?
      last) :
    visitor.Traced ((name, id?) :: references) state
      (⟨(name, id?), state, visitor name id? state⟩ :: calls) unvisited failure? last where
  references_eq := congrArg (List.cons (name, id?)) htraced.references_eq
  ran := ⟨rfl, rfl, htraced.ran⟩
  failure?_eq_none_iff := by
    rw [List.forall_mem_cons, ← htraced.failure?_eq_none_iff]
    exact (and_iff_right h).symm
  unvisited_eq_nil := htraced.unvisited_eq_nil
  ends := by
    intro before call after error hcalls herror
    cases before with
    | nil =>
      obtain ⟨rfl, -⟩ := List.cons_eq_cons.mp hcalls
      exact absurd (h.symm.trans herror) nofun
    | cons first before =>
      exact htraced.ends before call after error (List.cons_eq_cons.mp hcalls).2 herror

/-- The calls on a list of references, what they left, and that they are what is written down. -/
theorem exists_traced (visitor : ReferenceVisitor ε σ) (references : List (String × Option UInt32))
    (state : σ) :
    ∃ calls unvisited,
      visitor.Traced references state calls unvisited (visitor.visitAll references state).failure?
        (visitor.visitAll references state).state ∧
      (visitor.visitAll references state).outcome = calls.map ReferenceCall.left ++ unvisited ∧
      ∀ past, visitor.recording.visitAll references (state, past) =
        ⟨(visitor.visitAll references state).outcome,
          (visitor.visitAll references state).failure?,
          (visitor.visitAll references state).state, past ++ calls⟩ := by
  induction references generalizing state with
  | nil =>
    refine ⟨[], [], ⟨rfl, rfl, iff_of_true rfl nofun, fun _ => rfl, by simp⟩, rfl, fun past => ?_⟩
    rw [List.append_nil]
    rfl
  | cons reference references ih =>
    obtain ⟨name, id?⟩ := reference
    -- The visitor that records fails where the other one does, so one case split is for both.
    have hrecording : ∀ past, (visitor.recording name id? (state, past)).failure? =
        (visitor name id? state).failure? := fun _ => rfl
    cases hfailure : (visitor name id? state).failure? with
    | some failure =>
      rw [visitAll_cons_of_some hfailure]
      exact ⟨_, references, .of_some references hfailure, rfl, fun past =>
        visitAll_cons_of_some ((hrecording past).trans hfailure)⟩
    | none =>
      obtain ⟨calls, unvisited, htraced, houtcome, hrecorded⟩ := ih (visitor name id? state).state
      rw [visitAll_cons_of_none hfailure]
      refine ⟨_, unvisited, .of_none hfailure htraced, congrArg _ houtcome, fun past => ?_⟩
      rw [visitAll_cons_of_none ((hrecording past).trans hfailure)]
      simp only [recording, hrecorded, Visit.map, List.append_assoc]
      rfl

end

end ReferenceVisitor

/-! ## Visits that go alike -/

/-- Two visits of different subjects that fail alike and leave the same state, with outcomes that
are related. -/
structure Visit.Alike (R : α → α' → Prop) (visit : Visit ε σ α) (other : Visit ε σ α') : Prop where
  outcome : R visit.outcome other.outcome
  failure?_eq : visit.failure? = other.failure?
  state_eq : visit.state = other.state

namespace Visit.Alike

variable {R : α → α' → Prop} {S : β → β' → Prop} {visit : Visit ε σ α} {other : Visit ε σ α'}

theorem map {T : γ → α' → Prop} {build : α → γ} (h : Alike R visit other)
    (hbuild : ∀ outcome outcome', R outcome outcome' → T (build outcome) outcome') :
    Alike T (visit.map build) other :=
  ⟨hbuild _ _ h.outcome, h.failure?_eq, h.state_eq⟩

/-- One visit after the other, whether or not the first one fails. -/
theorem andThen {T : γ → γ' → Prop} {build : α → β → γ} {build' : α' → β' → γ'} {second : β}
    {second' : β'} {next : σ → Visit ε σ β} {next' : σ → Visit ε σ β'}
    (hfirst : Alike R visit other) (hsecond : S second second')
    (hnext : ∀ state, Alike S (next state) (next' state))
    (hbuild : ∀ a a' b b', R a a' → S b b' → T (build a b) (build' a' b')) :
    Alike T (visit.andThen build second next) (other.andThen build' second' next') := by
  unfold Visit.andThen
  rw [← hfirst.failure?_eq, ← hfirst.state_eq]
  cases visit.failure? with
  | some failure => exact ⟨hbuild _ _ _ _ hfirst.outcome hsecond, rfl, rfl⟩
  | none =>
    have hthen := hnext visit.state
    exact ⟨hbuild _ _ _ _ hfirst.outcome hthen.outcome, hthen.failure?_eq, hthen.state_eq⟩

end Visit.Alike

/-! ## Terms and their references -/

namespace Tree

/-- The name and the id of a reference. -/
def reference? : Tree → Option (String × Option UInt32)
  | .ref name id? => some (name, id?)
  | _ => none

/-- The references of a term in the order of its nodes, each with the id it has. -/
def occurrences (tree : Tree) : List (String × Option UInt32) := tree.nodes.filterMap reference?

/-- The references of the fields of a constructor. -/
def occurrencesOfFields (fields : List Tree) : List (String × Option UInt32) :=
  (nodesOfFields fields).filterMap reference?

/-- The references of the arms of a match. -/
def occurrencesOfArms (arms : List (UInt32 × Tree)) : List (String × Option UInt32) :=
  (nodesOfArms arms).filterMap reference?

/-- The term without the ids of its references. -/
def unlinked (tree : Tree) : Tree := tree.withIds fun _ => none

/-- Puts the ids of the given references in place of those that are there, one after the other. -/
def replaying : ReferenceVisitor Empty (List (String × Option UInt32)) := fun _ id? references =>
  match references with
  | [] => ⟨id?, none, []⟩
  | (_, id?) :: references => ⟨id?, none, references⟩

mutual

/-- What `unlinked` takes from a term, a walk can put back. -/
theorem replay_unlinked (tree : Tree) (rest : List (String × Option UInt32)) :
    (tree.withIds fun _ => none).visitReferences replaying (tree.occurrences ++ rest) =
      ⟨tree, none, rest⟩ := by
  cases tree with
  | era | var name | u32 value => rfl
  | ref name id? => rfl
  | lam name body =>
    simp only [withIds, visitReferences, occurrences, nodes, List.filterMap_cons, reference?]
    rw [← occurrences, replay_unlinked body rest, Visit.map]
  | app first second | sup label first second | op2 operator first second
  | dup label first' second' first second =>
    simp only [withIds, visitReferences, occurrences, nodes, List.filterMap_cons, reference?,
      List.filterMap_append, List.append_assoc]
    rw [← occurrences, ← occurrences, replay_unlinked first, Visit.andThen,
      replay_unlinked second, Visit.map]
  | ctr id fields =>
    simp only [withIds, visitReferences, occurrences, nodes, List.filterMap_cons, reference?]
    rw [← occurrencesOfFields, replay_fields fields, Visit.map]
  | mat scrutinee arms =>
    simp only [withIds, visitReferences, occurrences, nodes, List.filterMap_cons, reference?,
      List.filterMap_append, List.append_assoc]
    rw [← occurrences, ← occurrencesOfArms, replay_unlinked scrutinee, Visit.andThen,
      replay_arms arms, Visit.map]

theorem replay_fields (fields : List Tree) (rest : List (String × Option UInt32)) :
    visitFields replaying (fieldsWithIds (fun _ => none) fields)
      (occurrencesOfFields fields ++ rest) = ⟨fields, none, rest⟩ := by
  cases fields with
  | nil => rfl
  | cons field fields =>
    simp only [fieldsWithIds, visitFields, occurrencesOfFields, nodesOfFields,
      List.filterMap_append, List.append_assoc]
    rw [← occurrences, ← occurrencesOfFields, replay_unlinked field, Visit.andThen,
      replay_fields fields, Visit.map]

theorem replay_arms (arms : List (UInt32 × Tree)) (rest : List (String × Option UInt32)) :
    visitArms replaying (armsWithIds (fun _ => none) arms) (occurrencesOfArms arms ++ rest) =
      ⟨arms, none, rest⟩ := by
  cases arms with
  | nil => rfl
  | cons arm arms =>
    obtain ⟨id, body⟩ := arm
    simp only [armsWithIds, visitArms, occurrencesOfArms, nodesOfArms, List.filterMap_append,
      List.append_assoc]
    rw [← occurrences, ← occurrencesOfArms, replay_unlinked body, Visit.andThen,
      replay_arms arms, Visit.map]

end

/-- A term is what it is without the ids of its references, and its references. -/
theorem eq_iff_unlinked_eq {tree other : Tree} :
    tree = other ↔ tree.unlinked = other.unlinked ∧ tree.occurrences = other.occurrences := by
  constructor
  · rintro rfl
    exact ⟨rfl, rfl⟩
  · rintro ⟨hunlinked, hoccurrences⟩
    have htree := replay_unlinked tree []
    have hother := replay_unlinked other []
    rw [← unlinked, hunlinked, hoccurrences, unlinked, hother] at htree
    exact congrArg Visit.outcome htree.symm

/-! ## Walks -/

/-- The outcome is the value but for the ids of its references, and these are the given ones. -/
structure Relinks (unlinked : α → α) (occurrences : α → List (String × Option UInt32))
    (value outcome : α) (references : List (String × Option UInt32)) : Prop where
  unlinked_eq : unlinked outcome = unlinked value
  occurrences_eq : occurrences outcome = references

variable (visitor : ReferenceVisitor ε σ)

mutual

/-- A walk over a term goes like one over the list of its references. -/
theorem visitReferences_alike (tree : Tree) (state : σ) :
    Visit.Alike (Relinks unlinked occurrences tree) (tree.visitReferences visitor state)
      (visitor.visitAll tree.occurrences state) := by
  cases tree with
  | era | var name | u32 value => exact ⟨⟨rfl, rfl⟩, rfl, rfl⟩
  | ref name id? =>
    rw [show (ref name id?).occurrences = [(name, id?)] from rfl,
      ReferenceVisitor.visitAll_singleton]
    exact ⟨⟨rfl, rfl⟩, rfl, rfl⟩
  | lam name body =>
    refine (visitReferences_alike body state).map ?_
    rintro outcome _ ⟨hbody, rfl⟩
    exact ⟨congrArg (lam name) hbody, rfl⟩
  | app first second | sup label first second | op2 operator first second
  | dup label first' second' first second =>
    simp only [occurrences, nodes, List.filterMap_cons, reference?, List.filterMap_append]
    rw [ReferenceVisitor.visitAll_append]
    refine (visitReferences_alike first state).andThen ⟨rfl, rfl⟩ (visitReferences_alike second) ?_
    rintro _ _ _ _ ⟨hfirst, rfl⟩ ⟨hsecond, rfl⟩
    refine ⟨?_, List.filterMap_append⟩
    simp only [unlinked, withIds] at hfirst hsecond ⊢
    rw [hfirst, hsecond]
  | ctr id fields =>
    refine (visitFields_alike fields state).map ?_
    rintro outcome _ ⟨hfields, rfl⟩
    exact ⟨congrArg (ctr id) hfields, rfl⟩
  | mat scrutinee arms =>
    simp only [occurrences, nodes, List.filterMap_cons, reference?, List.filterMap_append]
    rw [ReferenceVisitor.visitAll_append]
    refine (visitReferences_alike scrutinee state).andThen ⟨rfl, rfl⟩ (visitArms_alike arms) ?_
    rintro _ _ _ _ ⟨hscrutinee, rfl⟩ ⟨harms, rfl⟩
    exact ⟨congrArg₂ mat hscrutinee harms, List.filterMap_append⟩

theorem visitFields_alike (fields : List Tree) (state : σ) :
    Visit.Alike (Relinks (fieldsWithIds fun _ => none) occurrencesOfFields fields)
      (visitFields visitor fields state) (visitor.visitAll (occurrencesOfFields fields) state) := by
  cases fields with
  | nil => exact ⟨⟨rfl, rfl⟩, rfl, rfl⟩
  | cons field fields =>
    simp only [occurrencesOfFields, nodesOfFields, List.filterMap_append]
    rw [ReferenceVisitor.visitAll_append]
    refine (visitReferences_alike field state).andThen ⟨rfl, rfl⟩ (visitFields_alike fields) ?_
    rintro _ _ _ _ ⟨hfield, rfl⟩ ⟨hfields, rfl⟩
    exact ⟨congrArg₂ List.cons hfield hfields, List.filterMap_append⟩

theorem visitArms_alike (arms : List (UInt32 × Tree)) (state : σ) :
    Visit.Alike (Relinks (armsWithIds fun _ => none) occurrencesOfArms arms)
      (visitArms visitor arms state) (visitor.visitAll (occurrencesOfArms arms) state) := by
  cases arms with
  | nil => exact ⟨⟨rfl, rfl⟩, rfl, rfl⟩
  | cons arm arms =>
    obtain ⟨id, body⟩ := arm
    simp only [occurrencesOfArms, nodesOfArms, List.filterMap_append]
    rw [ReferenceVisitor.visitAll_append]
    refine (visitReferences_alike body state).andThen ⟨rfl, rfl⟩ (visitArms_alike arms) ?_
    rintro _ _ _ _ ⟨hbody, rfl⟩ ⟨harms, rfl⟩
    exact ⟨congrArg₂ (fun body arms => (id, body) :: arms) hbody harms, List.filterMap_append⟩

end

/-- A walk calls the visitor on the references of the term in their order, each of them once, up to
the first call that fails.  It fails exactly if a call does, with what that call failed with, and
otherwise it has come to all references.  The visitor leaves an id in every reference it was called
on, also in the one where it failed; nothing else in the term is changed.

The calls are those that are written down if the visitor keeps a list of them. -/
theorem visitReferences_calls (tree : Tree) (state : σ) :
    ∃ calls unvisited,
      tree.visitReferences visitor.recording (state, []) =
        ⟨(tree.visitReferences visitor state).outcome,
          (tree.visitReferences visitor state).failure?,
          ((tree.visitReferences visitor state).state, calls)⟩ ∧
      visitor.Traced tree.occurrences state calls unvisited
        (tree.visitReferences visitor state).failure? (tree.visitReferences visitor state).state ∧
      ∀ outcome, (tree.visitReferences visitor state).outcome = outcome ↔
        outcome.unlinked = tree.unlinked ∧
          outcome.occurrences = calls.map ReferenceCall.left ++ unvisited := by
  obtain ⟨calls, unvisited, htraced, houtcome, hrecorded⟩ :=
    visitor.exists_traced tree.occurrences state
  have hplain := visitReferences_alike visitor tree state
  have hrecording := visitReferences_alike visitor.recording tree (state, [])
  rw [hrecorded] at hrecording
  have hiff : ∀ outcome, (tree.visitReferences visitor state).outcome = outcome ↔
      outcome.unlinked = tree.unlinked ∧
        outcome.occurrences = calls.map ReferenceCall.left ++ unvisited := by
    intro outcome
    rw [eq_iff_unlinked_eq, hplain.outcome.unlinked_eq, hplain.outcome.occurrences_eq, houtcome,
      eq_comm, eq_comm (a := calls.map _ ++ _)]
  refine ⟨calls, unvisited, ?_, ?_, hiff⟩
  · have heq := (hiff (tree.visitReferences visitor.recording (state, [])).outcome).mpr
      ⟨hrecording.outcome.unlinked_eq, hrecording.outcome.occurrences_eq.trans houtcome⟩
    have hfailure := hplain.failure?_eq.trans hrecording.failure?_eq.symm
    have hstate : ((tree.visitReferences visitor state).state, calls) =
        (tree.visitReferences visitor.recording (state, [])).state := by
      rw [hplain.state_eq]
      exact hrecording.state_eq.symm
    rw [heq, hfailure, hstate]
  · rw [hplain.failure?_eq, hplain.state_eq]
    exact htraced

/-- The walk ends in the body, where the second call fails, and comes to no argument. -/
example : ((app (dup 0 "x" "y" (ref "f" none) (ref "g" none)) (ref "h" none)).visitReferences
    (numberReference (some 1)) []).outcome.occurrences =
      [("f", some 0), ("g", none), ("h", none)] := rfl

end Tree

end InteractionGraph
