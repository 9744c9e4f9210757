import InteractionGraph.Proofs.Inject.Step
import InteractionGraph.Proofs.Tree.Nodes

/-!
# The steps of a term

Cells are handed out one behind the other, so the addresses of all nodes of a term are known
before it is written: they follow from the size of the heap and the cost of the parts that come
first.  `Tree.steps` lists the steps that write a term into the cell `host` of a heap with `base`
cells, and `inject_eq_performAll` says that writing the term is carrying them out, whether it
succeeds or not.
-/

namespace InteractionGraph

open Injection Step

namespace Tree

mutual

/-- The steps that write a term into the cell `host`, where its cells are handed out from the
address `base` on. -/
def steps : Tree → Nat → Nat → List Step
  | .era, host, _ => [.store host .era 0 0]
  | .lam name body, host, base =>
    .reserve ⟨base, 2⟩ :: .bind ⟨name, base, .var, 0, base⟩ ::
      (body.steps (base + 1) (base + 2) ++ [.store host .lam 0 base])
  | .app function argument, host, base =>
    .reserve ⟨base, 2⟩ ::
      (function.steps base (base + 2) ++
        (argument.steps (base + 1) (base + 2 + function.cost) ++ [.store host .app 0 base]))
  | .sup label left right, host, base =>
    .check .sup label.toNat :: .reserve ⟨base, 2⟩ ::
      (left.steps base (base + 2) ++
        (right.steps (base + 1) (base + 2 + left.cost) ++ [.store host .sup label.toNat base]))
  | .dup label first second value body, host, base =>
    .check .dp0 label.toNat :: .reserve ⟨base, 3⟩ ::
      .bind ⟨first, base, .dp0, label.toNat, base⟩ ::
      .bind ⟨second, base + 1, .dp1, label.toNat, base⟩ ::
      (value.steps (base + 2) (base + 3) ++ body.steps host (base + 3 + value.cost))
  | .ref name id?, host, _ =>
    match id? with
    | some id => [.store host .ref 0 id.toNat]
    | none => [.unlinked name host]
  | .var name, host, _ => [.use name host]
  | .ctr id fields, host, base =>
    .check .ctr id.toNat ::
      ((if fields = [] then [] else [.reserve ⟨base, fields.length⟩]) ++
        (stepsOfFields fields base (base + fields.length) ++
          [.store host .ctr id.toNat (if fields = [] then 0 else base)]))
  | .mat scrutinee arms, host, base =>
    .check .mat arms.length :: .reserve ⟨base, 1 + 2 * arms.length⟩ ::
      (scrutinee.steps base (base + (1 + 2 * arms.length)) ++
        (stepsOfArms arms (base + 1) (base + (1 + 2 * arms.length) + scrutinee.cost) ++
          [.store host .mat arms.length base]))
  | .op2 operator left right, host, base =>
    .reserve ⟨base, 2⟩ ::
      (left.steps base (base + 2) ++
        (right.steps (base + 1) (base + 2 + left.cost) ++ [.store host .opx operator.code base]))
  | .u32 value, host, _ => [.store host .w32 0 value.toNat]

/-- The steps that write the fields of a constructor into cells that follow each other. -/
def stepsOfFields : List Tree → Nat → Nat → List Step
  | [], _, _ => []
  | field :: fields, address, base =>
    field.steps address base ++ stepsOfFields fields (address + 1) (base + field.cost)

/-- The steps that write the arms of a match into pairs of cells that follow each other. -/
def stepsOfArms : List (UInt32 × Tree) → Nat → Nat → List Step
  | [], _, _ => []
  | (id, body) :: arms, address, base =>
    .store address .w32 0 id.toNat ::
      (body.steps (address + 1) base ++ stepsOfArms arms (address + 2) (base + body.cost))

end

/-! ## Cells -/

mutual

/-- The steps of a term hand out as many cells as the term costs. -/
theorem reserved_steps (tree : Tree) (host base : Nat) :
    reserved (tree.steps host base) = tree.cost := by
  cases tree with
  | ref name id? => cases id? <;> simp [steps, cellCount]
  | ctr id fields =>
    rcases fields with _ | ⟨field, fields⟩
    · simp [steps, stepsOfFields, cellCount]
    · simp [steps, cellCount, reserved_stepsOfFields (field :: fields)]
  | _ => simp [steps, cellCount, reserved_steps, reserved_stepsOfArms, Nat.add_assoc]

theorem reserved_stepsOfFields (fields : List Tree) (address base : Nat) :
    reserved (stepsOfFields fields address base) = costOfFields fields := by
  cases fields with
  | nil => rfl
  | cons field fields => simp [stepsOfFields, reserved_steps, reserved_stepsOfFields]

theorem reserved_stepsOfArms (arms : List (UInt32 × Tree)) (address base : Nat) :
    reserved (stepsOfArms arms address base) = costOfArms arms := by
  cases arms with
  | nil => rfl
  | cons arm arms =>
    obtain ⟨id, body⟩ := arm
    simp [stepsOfArms, cellCount, reserved_steps, reserved_stepsOfArms]

end

end Tree

/-! ## Writing a term is carrying out its steps -/

/-- On heaps of the given size, the injection is a run of the steps. -/
def Follows (injection : Injection Unit) (steps : List Step) (size : Nat) : Prop :=
  ∀ injector : Injector, injector.heap.size = size →
    injection injector = performAll steps injector

namespace Follows

variable {first second : Injection Unit} {steps others : List Step} {size : Nat}

theorem nil : Follows (pure ()) [] size := fun _ _ => rfl

/-- A single step is a run. -/
theorem step (step : Step) : Follows step.perform [step] size := by
  intro injector _
  rw [performAll, performAll]
  exact congrFun (bind_pure step.perform).symm injector

/-- One run after the other.  The second begins on a heap that the first has made larger. -/
theorem append (hfirst : Follows first steps size)
    (hsecond : Follows second others (size + reserved steps)) :
    Follows (first >>= fun _ => second) (steps ++ others) size := by
  intro injector hsize
  rw [performAll_append]
  change EStateM.bind _ _ injector = EStateM.bind _ _ injector
  unfold EStateM.bind
  rw [hfirst injector hsize]
  cases hrun : performAll steps injector with
  | error error left => rfl
  | ok done left =>
    have hleft : left.heap.size = size + reserved steps := by
      rw [(performAll_eq_ok_iff.mp hrun).2, size_effectAll, hsize]
    exact hsecond left hleft

/-- A step before a run. -/
theorem cons (step : Step) (hsecond : Follows second steps (size + step.cellCount)) :
    Follows (step.perform >>= fun _ => second) (step :: steps) size := by
  have hrest : Follows second steps (size + reserved [step]) := by simpa using hsecond
  exact append (.step step) hrest

/-- Cells are handed out behind those in use, so their address is the size of the heap. -/
theorem reserve {count : Nat} {next : Nat → Injection Unit}
    (hnext : Follows (next size) steps (size + count)) :
    Follows (alloc count >>= next) (.reserve ⟨size, count⟩ :: steps) size := by
  intro injector hsize
  have hstep : ∀ rest : Injection Unit,
      (∀ left : Injector, left.heap.size = size + count → rest left = next size left) →
      (alloc count >>= next) injector =
        ((Step.reserve ⟨size, count⟩).perform >>= fun _ => rest) injector := by
    intro rest hrest
    rw [perform, bind_assoc]
    simp only [pure_bind]
    change EStateM.bind _ _ injector = EStateM.bind _ _ injector
    unfold EStateM.bind
    cases hrun : alloc count injector with
    | error error left => rfl
    | ok address left =>
      obtain ⟨_, rfl, rfl⟩ := Injection.alloc_eq_ok_iff.mp hrun
      have hleft : (injector.heap.grow count).size = size + count := by
        rw [Heap.size_grow, hsize]
      rw [hsize]
      exact (hrest _ hleft).symm
  rw [performAll]
  exact hstep (performAll steps) fun left hleft => (hnext left hleft).symm

/-- A binder before a run. -/
theorem bindName {name : String} {slot label node : Nat} {tag : Tag}
    (hsecond : Follows second steps size) :
    Follows (encode tag label node >>= fun use => Injection.bindName name slot use >>= fun _ =>
      second) (.bind ⟨name, slot, tag, label, node⟩ :: steps) size := by
  rw [← bind_assoc]
  exact cons (.bind ⟨name, slot, tag, label, node⟩) hsecond

end Follows

namespace Tree

mutual

theorem follows_inject (tree : Tree) (host size : Nat) :
    Follows (tree.inject host) (tree.steps host size) size := by
  cases tree with
  | era =>
    rw [inject, steps]
    exact .step (.store host .era 0 0)
  | lam name body =>
    rw [inject, steps]
    exact .reserve (.bindName (.append (follows_inject body _ _) (.step (.store ..))))
  | app function argument =>
    rw [inject, steps]
    refine .reserve (.append (follows_inject function _ _) ?_)
    rw [reserved_steps]
    exact .append (follows_inject argument _ _) (.step (.store ..))
  | sup label left right =>
    rw [inject, steps]
    refine .cons (.check ..) (.reserve (.append (follows_inject left _ _) ?_))
    rw [reserved_steps]
    exact .append (follows_inject right _ _) (.step (.store ..))
  | dup label first second value body =>
    rw [inject, steps]
    refine .cons (.check ..)
      (.reserve (.bindName (.bindName (.append (follows_inject value _ _) ?_))))
    rw [reserved_steps]
    exact follows_inject body _ _
  | ref name id? =>
    cases id? with
    | none =>
      rw [inject, steps]
      exact .step (.unlinked name host)
    | some id =>
      rw [inject, steps]
      exact .step (.store host .ref 0 id.toNat)
  | var name =>
    rw [inject, steps]
    exact .step (.use name host)
  | ctr id fields =>
    rw [inject, steps]
    refine .cons (.check ..) ?_
    rcases fields with _ | ⟨field, fields⟩
    · simp only [List.isEmpty_nil, pure_bind, injectFields, stepsOfFields, if_pos,
        List.nil_append]
      exact .step (.store ..)
    · rw [if_neg (List.cons_ne_nil field fields), if_neg (List.cons_ne_nil field fields),
        List.singleton_append]
      exact .reserve (.append (follows_injectFields _ _ _) (.step (.store ..)))
  | mat scrutinee arms =>
    rw [inject, steps]
    refine .cons (.check ..) (.reserve (.append (follows_inject scrutinee _ _) ?_))
    rw [reserved_steps]
    exact .append (follows_injectArms arms _ _) (.step (.store ..))
  | op2 operator left right =>
    rw [inject, steps]
    refine .reserve (.append (follows_inject left _ _) ?_)
    rw [reserved_steps]
    exact .append (follows_inject right _ _) (.step (.store ..))
  | u32 value =>
    rw [inject, steps]
    exact .step (.store host .w32 0 value.toNat)

theorem follows_injectFields (fields : List Tree) (address size : Nat) :
    Follows (injectFields fields address) (stepsOfFields fields address size) size := by
  cases fields with
  | nil =>
    rw [injectFields, stepsOfFields]
    exact .nil
  | cons field fields =>
    rw [injectFields, stepsOfFields]
    refine .append (follows_inject field _ _) ?_
    rw [reserved_steps]
    exact follows_injectFields fields _ _

theorem follows_injectArms (arms : List (UInt32 × Tree)) (address size : Nat) :
    Follows (injectArms arms address) (stepsOfArms arms address size) size := by
  cases arms with
  | nil =>
    rw [injectArms, stepsOfArms]
    exact .nil
  | cons arm arms =>
    obtain ⟨id, body⟩ := arm
    rw [injectArms, stepsOfArms]
    refine .cons (.store ..) (.append (follows_inject body _ _) ?_)
    rw [reserved_steps]
    exact follows_injectArms arms _ _

end

/-- Writing a term is carrying out its steps. -/
theorem inject_eq_performAll (tree : Tree) (host : Nat) (injector : Injector) :
    tree.inject host injector = performAll (tree.steps host injector.heap.size) injector :=
  follows_inject tree host injector.heap.size injector rfl

end Tree

end InteractionGraph
