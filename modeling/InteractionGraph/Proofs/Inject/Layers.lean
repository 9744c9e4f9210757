import InteractionGraph.Proofs.Inject.Relocation

/-!
# A term inside another

A `Tree.Layer` is a node with a hole in the place of one of its parts, and a term is found inside
another one through some layers (`Tree.within`).

To write a layer around a term is to carry out some steps, then those of the term, then some more
(`Tree.steps_plug`).  The term only determines how many cells there are between those that the layer
takes before it and those behind.  The steps of a layer move like those of a term, where the two
parts of its cells may move apart from each other.
-/

namespace InteractionGraph

namespace Tree

/-! ## Parts that follow each other -/

theorem costOfFields_append (before after : List Tree) :
    costOfFields (before ++ after) = costOfFields before + costOfFields after := by
  induction before with
  | nil => simp
  | cons field before ih => simp [ih, Nat.add_assoc]

theorem costOfArms_append (before after : List (UInt32 × Tree)) :
    costOfArms (before ++ after) = costOfArms before + costOfArms after := by
  induction before with
  | nil => simp
  | cons arm before ih =>
    obtain ⟨id, body⟩ := arm
    simp [ih, Nat.add_assoc]

theorem stepsOfFields_append (before after : List Tree) (address base : Nat) :
    stepsOfFields (before ++ after) address base =
      stepsOfFields before address base ++
        stepsOfFields after (address + before.length) (base + costOfFields before) := by
  induction before generalizing address base with
  | nil => simp [stepsOfFields]
  | cons field before ih =>
    rw [List.cons_append, stepsOfFields, stepsOfFields, ih, List.append_assoc, List.length_cons,
      costOfFields_cons, Nat.add_assoc address, Nat.add_comm 1, Nat.add_assoc base]

theorem stepsOfArms_append (before after : List (UInt32 × Tree)) (address base : Nat) :
    stepsOfArms (before ++ after) address base =
      stepsOfArms before address base ++
        stepsOfArms after (address + 2 * before.length) (base + costOfArms before) := by
  induction before generalizing address base with
  | nil => simp [stepsOfArms]
  | cons arm before ih =>
    obtain ⟨id, body⟩ := arm
    have haddress : address + 2 + 2 * before.length = address + 2 * (before.length + 1) := by omega
    rw [List.cons_append, stepsOfArms, stepsOfArms, ih, List.cons_append, List.append_assoc,
      List.length_cons, costOfArms_cons, haddress, Nat.add_assoc base]

/-! ## Layers -/

/-- A node with a hole in the place of one of its parts. -/
inductive Layer where
  | lam (name : String)
  | appFunction (argument : Tree)
  | appArgument (function : Tree)
  | supLeft (label : UInt32) (right : Tree)
  | supRight (label : UInt32) (left : Tree)
  | dupValue (label : UInt32) (first second : String) (body : Tree)
  | dupBody (label : UInt32) (first second : String) (value : Tree)
  | ctrField (id : UInt32) (before after : List Tree)
  | matScrutinee (arms : List (UInt32 × Tree))
  | matArm (scrutinee : Tree) (before : List (UInt32 × Tree)) (id : UInt32)
    (after : List (UInt32 × Tree))
  | op2Left (operator : Operator) (right : Tree)
  | op2Right (operator : Operator) (left : Tree)

namespace Layer

/-- The node with the term in its hole. -/
def plug : Layer → Tree → Tree
  | lam name, tree => .lam name tree
  | appFunction argument, tree => .app tree argument
  | appArgument function, tree => .app function tree
  | supLeft label right, tree => .sup label tree right
  | supRight label left, tree => .sup label left tree
  | dupValue label first second body, tree => .dup label first second tree body
  | dupBody label first second value, tree => .dup label first second value tree
  | ctrField id before after, tree => .ctr id (before ++ tree :: after)
  | matScrutinee arms, tree => .mat tree arms
  | matArm scrutinee before id after, tree => .mat scrutinee (before ++ (id, tree) :: after)
  | op2Left operator right, tree => .op2 operator tree right
  | op2Right operator left, tree => .op2 operator left tree

/-- The number of cells that the layer takes before the term in its hole takes its own. -/
def costBefore : Layer → Nat
  | lam _ | appFunction _ | supLeft _ _ | op2Left _ _ => 2
  | appArgument other | supRight _ other | op2Right _ other => 2 + other.cost
  | dupValue _ _ _ _ => 3
  | dupBody _ _ _ value => 3 + value.cost
  | ctrField _ before after => before.length + (after.length + 1) + costOfFields before
  | matScrutinee arms => 1 + 2 * arms.length
  | matArm scrutinee before _ after =>
    1 + 2 * (before.length + (after.length + 1)) + scrutinee.cost + costOfArms before

/-- The number of cells that it takes afterwards. -/
def costAfter : Layer → Nat
  | lam _ | dupBody _ _ _ _ | appArgument _ | supRight _ _ | op2Right _ _ => 0
  | appFunction other | supLeft _ other | op2Left _ other | dupValue _ _ _ other => other.cost
  | ctrField _ _ after => costOfFields after
  | matScrutinee arms => costOfArms arms
  | matArm _ _ _ after => costOfArms after

/-- The cell of the hole, where the layer is written into the cell `host` of a heap with `base`
cells. -/
def hole : Layer → Nat → Nat → Nat
  | appFunction _, _, base | supLeft _ _, _, base | op2Left _ _, _, base
  | matScrutinee _, _, base => base
  | lam _, _, base | appArgument _, _, base | supRight _ _, _, base | op2Right _ _, _, base =>
    base + 1
  | dupValue _ _ _ _, _, base => base + 2
  | dupBody _ _ _ _, host, _ => host
  | ctrField _ before _, _, base => base + before.length
  | matArm _ before _ _, _, base => base + 1 + 2 * before.length + 1

/-- The steps before those of the term in the hole. -/
def before : Layer → Nat → List Step
  | lam name, base => [.reserve ⟨base, 2⟩, .bind ⟨name, base, .var, 0, base⟩]
  | appFunction _, base | op2Left _ _, base => [.reserve ⟨base, 2⟩]
  | appArgument other, base | op2Right _ other, base =>
    .reserve ⟨base, 2⟩ :: other.steps base (base + 2)
  | supLeft label _, base => [.check .sup label.toNat, .reserve ⟨base, 2⟩]
  | supRight label other, base =>
    .check .sup label.toNat :: .reserve ⟨base, 2⟩ :: other.steps base (base + 2)
  | dupValue label first second _, base =>
    [.check .dp0 label.toNat, .reserve ⟨base, 3⟩, .bind ⟨first, base, .dp0, label.toNat, base⟩,
      .bind ⟨second, base + 1, .dp1, label.toNat, base⟩]
  | dupBody label first second value, base =>
    .check .dp0 label.toNat :: .reserve ⟨base, 3⟩ ::
      .bind ⟨first, base, .dp0, label.toNat, base⟩ ::
      .bind ⟨second, base + 1, .dp1, label.toNat, base⟩ :: value.steps (base + 2) (base + 3)
  | ctrField id before after, base =>
    .check .ctr id.toNat :: .reserve ⟨base, before.length + (after.length + 1)⟩ ::
      stepsOfFields before base (base + (before.length + (after.length + 1)))
  | matScrutinee arms, base => [.check .mat arms.length, .reserve ⟨base, 1 + 2 * arms.length⟩]
  | matArm scrutinee before id after, base =>
    .check .mat (before.length + (after.length + 1)) ::
      .reserve ⟨base, 1 + 2 * (before.length + (after.length + 1))⟩ ::
      (scrutinee.steps base (base + (1 + 2 * (before.length + (after.length + 1)))) ++
        (stepsOfArms before (base + 1)
            (base + (1 + 2 * (before.length + (after.length + 1))) + scrutinee.cost) ++
          [.store (base + 1 + 2 * before.length) .w32 0 id.toNat]))

/-- The steps after those of the term in the hole, where the cells are handed out from the address
`next` on. -/
def after : Layer → Nat → Nat → Nat → List Step
  | lam _, host, base, _ => [.store host .lam 0 base]
  | appFunction other, host, base, next => other.steps (base + 1) next ++ [.store host .app 0 base]
  | appArgument _, host, base, _ => [.store host .app 0 base]
  | supLeft label other, host, base, next =>
    other.steps (base + 1) next ++ [.store host .sup label.toNat base]
  | supRight label _, host, base, _ => [.store host .sup label.toNat base]
  | op2Left operator other, host, base, next =>
    other.steps (base + 1) next ++ [.store host .opx operator.code base]
  | op2Right operator _, host, base, _ => [.store host .opx operator.code base]
  | dupValue _ _ _ body, host, _, next => body.steps host next
  | dupBody _ _ _ _, _, _, _ => []
  | ctrField id before after, host, base, next =>
    stepsOfFields after (base + before.length + 1) next ++ [.store host .ctr id.toNat base]
  | matScrutinee arms, host, base, next =>
    stepsOfArms arms (base + 1) next ++ [.store host .mat arms.length base]
  | matArm _ before _ after, host, base, next =>
    stepsOfArms after (base + 1 + 2 * before.length + 2) next ++
      [.store host .mat (before.length + (after.length + 1)) base]

/-! ## A layer around a term -/

theorem cost_plug (layer : Layer) (tree : Tree) :
    (layer.plug tree).cost = layer.costBefore + tree.cost + layer.costAfter := by
  cases layer with
  | ctrField id before after =>
    simp only [plug, cost_ctr, costBefore, costAfter, costOfFields_append, costOfFields_cons,
      List.length_append, List.length_cons]
    omega
  | matArm scrutinee before id after =>
    simp only [plug, cost_mat, costBefore, costAfter, costOfArms_append, costOfArms_cons,
      List.length_append, List.length_cons]
    omega
  | _ => simp [plug, costBefore, costAfter]

theorem steps_plug (layer : Layer) (tree : Tree) (host base : Nat) :
    (layer.plug tree).steps host base =
      layer.before base ++
        (tree.steps (layer.hole host base) (base + layer.costBefore) ++
          layer.after host base (base + layer.costBefore + tree.cost)) := by
  cases layer with
  | ctrField id before after =>
    have hfields : before ++ tree :: after ≠ [] := by simp
    simp [plug, Tree.steps, Layer.before, Layer.after, hole, costBefore, hfields,
      stepsOfFields_append, stepsOfFields, Nat.add_assoc]
  | matArm scrutinee before id after =>
    simp [plug, Tree.steps, Layer.before, Layer.after, hole, costBefore, stepsOfArms_append,
      stepsOfArms, Nat.add_assoc]
  | _ => simp [plug, Tree.steps, Layer.before, Layer.after, hole, costBefore, Nat.add_assoc]

/-! ## A layer at other addresses -/

variable {f : Nat → Nat} {host base base' next next' : Nat}

/-- The hole is behind the cells in use, unless it is the host of the layer. -/
theorem hole_lt (layer : Layer) (h : host < base) :
    layer.hole host base < base + layer.costBefore := by
  cases layer <;> simp only [hole, costBefore] <;> omega

theorem hole_moved (layer : Layer) (host : Nat) (hf : Shifts f base base' layer.costBefore) :
    layer.hole (f host) base' = f (layer.hole host base) := by
  cases layer with
  | dupBody label first second value => rfl
  | appFunction other | supLeft label other | op2Left operator other | matScrutinee arms =>
    exact (hf 0 (by simp only [costBefore]; omega)).symm
  | lam name | appArgument other | supRight label other | op2Right operator other =>
    exact (hf 1 (by simp only [costBefore]; omega)).symm
  | dupValue label first second body => exact (hf 2 (by simp only [costBefore]; omega)).symm
  | ctrField id before after =>
    exact (hf before.length (by simp only [costBefore]; omega)).symm
  | matArm scrutinee before id after =>
    have hplaces : Shifts f (base + 1) (base' + 1) (2 * before.length + 2) :=
      hf.part 1 rfl rfl (by simp only [costBefore]; omega)
    exact (hplaces (2 * before.length + 1) (by omega)).symm

theorem before_moved (layer : Layer) (hbase : 0 < base)
    (hf : Shifts f base base' layer.costBefore) :
    layer.before base' = (layer.before base).map (Step.moved f) := by
  cases layer with
  | lam name =>
    have hnode : f base = base' := hf.first Nat.two_pos
    simp [Layer.before, Step.moved, Binder.moved, Tag.moved, Tag.addresses, hnode]
  | appFunction other | supLeft label other | op2Left operator other =>
    have hnode : f base = base' := hf.first Nat.two_pos
    simp [Layer.before, Step.moved, hnode]
  | appArgument other | supRight label other | op2Right operator other =>
    simp only [costBefore] at hf
    have hnode : f base = base' := hf.first (by omega)
    have hcells : Shifts f (base + 2) (base' + 2) other.cost := hf.part 2 rfl rfl (by omega)
    have hother := steps_moved other base (by omega) hcells
    rw [hnode] at hother
    simp [Layer.before, Step.moved, hnode, hother]
  | dupValue label first second body =>
    have hnode : f base = base' := hf.first (by simp [costBefore])
    have hslot : f (base + 1) = base' + 1 := hf 1 (by simp [costBefore])
    simp [Layer.before, Step.moved, Binder.moved, Tag.moved, Tag.addresses, hnode, hslot]
  | dupBody label first second value =>
    simp only [costBefore] at hf
    have hnode : f base = base' := hf.first (by omega)
    have hslot : f (base + 1) = base' + 1 := hf 1 (by omega)
    have hplace : f (base + 2) = base' + 2 := hf 2 (by omega)
    have hcells : Shifts f (base + 3) (base' + 3) value.cost := hf.part 3 rfl rfl (by omega)
    have hvalue := steps_moved value (base + 2) (by omega) hcells
    rw [hplace] at hvalue
    simp [Layer.before, Step.moved, Binder.moved, Tag.moved, Tag.addresses, hnode, hslot, hvalue]
  | ctrField id before after =>
    simp only [costBefore] at hf
    have hnode : f base = base' := hf.first (by omega)
    have hplaces : Shifts f base base' before.length := hf.part 0 rfl rfl (by omega)
    have hcells := hf.part (before.length + (after.length + 1)) rfl rfl (Nat.le_refl _)
    have hfields := stepsOfFields_moved before (by omega) hplaces hcells
    simp [Layer.before, Step.moved, hnode, hfields]
  | matScrutinee arms =>
    simp only [costBefore] at hf
    have hnode : f base = base' := hf.first (by omega)
    simp [Layer.before, Step.moved, hnode]
  | matArm scrutinee before id after =>
    simp only [costBefore] at hf
    have hnode : f base = base' := hf.first (by omega)
    have hplaces : Shifts f (base + 1) (base' + 1) (2 * before.length + 1) :=
      hf.part 1 rfl rfl (by omega)
    have hid := hplaces (2 * before.length) (by omega)
    have hcells : Shifts f (base + (1 + 2 * (before.length + (after.length + 1))))
        (base' + (1 + 2 * (before.length + (after.length + 1)))) scrutinee.cost :=
      hf.part _ rfl rfl (by omega)
    have hothers : Shifts f (base + (1 + 2 * (before.length + (after.length + 1))) + scrutinee.cost)
        (base' + (1 + 2 * (before.length + (after.length + 1))) + scrutinee.cost)
        (costOfArms before) :=
      hf.part (1 + 2 * (before.length + (after.length + 1)) + scrutinee.cost) (by omega) (by omega)
        (by omega)
    have hscrutinee := steps_moved scrutinee base (by omega) hcells
    have harms := stepsOfArms_moved before (by omega) (hplaces.part 0 rfl rfl (by omega)) hothers
    rw [hnode] at hscrutinee
    simp [Layer.before, Step.moved, Tag.moved, Tag.addresses, hnode, hid, hscrutinee, harms]

theorem after_moved (layer : Layer) (host : Nat) (hbase : 0 < base) (hnext : 0 < next)
    (hf : Shifts f base base' layer.costBefore) (hbehind : Shifts f next next' layer.costAfter) :
    layer.after (f host) base' next' = (layer.after host base next).map (Step.moved f) := by
  cases layer with
  | lam name =>
    have hnode : f base = base' := hf.first Nat.two_pos
    simp [Layer.after, Step.moved, Tag.moved, Tag.addresses, hnode]
  | appArgument other | supRight label other | op2Right operator other =>
    have hnode : f base = base' := hf.first (by simp only [costBefore]; omega)
    simp [Layer.after, Step.moved, Tag.moved, Tag.addresses, hnode]
  | appFunction other | supLeft label other | op2Left operator other =>
    have hnode : f base = base' := hf.first Nat.two_pos
    have hplace : f (base + 1) = base' + 1 := hf 1 Nat.one_lt_two
    have hother := steps_moved other (base + 1) hnext hbehind
    rw [hplace] at hother
    simp [Layer.after, Step.moved, Tag.moved, Tag.addresses, hnode, hother]
  | dupValue label first second body => exact steps_moved body host hnext hbehind
  | dupBody label first second value => rfl
  | ctrField id before after =>
    simp only [costBefore] at hf
    have hnode : f base = base' := hf.first (by omega)
    have hplaces : Shifts f (base + before.length + 1) (base' + before.length + 1) after.length :=
      hf.part (before.length + 1) rfl rfl (by omega)
    have hfields := stepsOfFields_moved after hnext hplaces hbehind
    have hne : base ≠ 0 := by omega
    simp [Layer.after, Step.moved, Tag.moved, Tag.addresses, hnode, hne, hfields]
  | matScrutinee arms =>
    simp only [costBefore] at hf
    have hnode : f base = base' := hf.first (by omega)
    have hplaces : Shifts f (base + 1) (base' + 1) (2 * arms.length) :=
      hf.part 1 rfl rfl (by omega)
    have harms := stepsOfArms_moved arms hnext hplaces hbehind
    simp [Layer.after, Step.moved, Tag.moved, Tag.addresses, hnode, harms]
  | matArm scrutinee before id after =>
    simp only [costBefore] at hf
    have hnode : f base = base' := hf.first (by omega)
    have hplaces : Shifts f (base + 1 + 2 * before.length + 2) (base' + 1 + 2 * before.length + 2)
        (2 * after.length) :=
      hf.part (1 + 2 * before.length + 2) (by omega) (by omega) (by omega)
    have harms := stepsOfArms_moved after hnext hplaces hbehind
    simp [Layer.after, Step.moved, Tag.moved, Tag.addresses, hnode, harms]

end Layer

/-- The term inside some layers, the outermost first. -/
def within (layers : List Layer) (tree : Tree) : Tree := layers.foldr Layer.plug tree

end Tree

end InteractionGraph
