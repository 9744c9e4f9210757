import InteractionGraph.Proofs.Inject.Graph
import InteractionGraph.Proofs.Word.Fields

/-!
# A term at other addresses

Where a term is written decides the addresses in its words, and nothing else.  If `f` maps the
addresses of one run to those of another, the steps of the one are those of the other with all of
their addresses mapped (`Tree.steps_moved`), and so are the words that are left in the cells
(`Step.Leaves.moved`).

Not every payload is an address.  `Tag.addresses` tells which ones are: those of all words that
stand for a node with cells, and those of variables.
-/

namespace InteractionGraph

open Step

/-! ## Addresses in words -/

/-- The payload of a word of this tag is the address of a node.  A constructor without fields has
no cells, and zero for its payload. -/
def Tag.addresses : Tag → Nat → Bool
  | .dp0, _ | .dp1, _ | .var, _ | .lam, _ | .app, _ | .sup, _ | .mat, _ | .opx, _ => true
  | .ctr, payload => payload ≠ 0
  | .sub, _ | .ref, _ | .era, _ | .w32, _ => false

/-- The payload of a word of this tag, with the address mapped that it may be. -/
def Tag.moved (f : Nat → Nat) (tag : Tag) (payload : Nat) : Nat :=
  if tag.addresses payload then f payload else payload

namespace Word

/-- The payload of the word is the address of a node. -/
def isPointer (word : Word) : Bool := word.tag?.any (·.addresses word.payload)

/-- The word with the address mapped that it may have for its payload. -/
def moved (f : Nat → Nat) (word : Word) : Word :=
  if word.isPointer then word.withPayload (f word.payload) else word

variable {tag : Tag} {label payload : Nat}

theorem isPointer_pack (h : payload < payloadLimit) :
    (pack tag label payload).isPointer = tag.addresses payload := by
  rw [isPointer, tag?_pack, payload_pack h, Option.any_some]

theorem moved_pack (f : Nat → Nat) (h : payload < payloadLimit) :
    (pack tag label payload).moved f = pack tag label (tag.moved f payload) := by
  rw [moved, isPointer_pack h, payload_pack h, Tag.moved]
  split
  · refine ext_fields ?_ ?_ ?_
    · simp [withPayload, pack]
    · simp [withPayload, pack]
    · simp [withPayload, pack]
  · rfl

end Word

/-! ## Addresses in steps -/

/-- The binder with its addresses mapped. -/
def Binder.moved (f : Nat → Nat) (binder : Binder) : Binder :=
  { binder with slot := f binder.slot, node := binder.tag.moved f binder.node }

namespace Step

/-- The step with its addresses mapped. -/
def moved (f : Nat → Nat) : Step → Step
  | check tag value => check tag value
  | unlinked name address => unlinked name (f address)
  | reserve cells => reserve ⟨f cells.start, cells.length⟩
  | bind binder => bind (binder.moved f)
  | use name address => use name (f address)
  | store address tag label payload => store (f address) tag label (tag.moved f payload)

end Step

/-- The addresses from `start` on are mapped to those from `start'` on, up to `count` of them. -/
def Shifts (f : Nat → Nat) (start start' count : Nat) : Prop :=
  ∀ place < count, f (start + place) = start' + place

namespace Shifts

variable {f : Nat → Nat} {start start' count inner inner' length : Nat}

theorem first (h : Shifts f start start' count) (hpos : 0 < count) : f start = start' := h 0 hpos

/-- A part of the addresses. -/
theorem part (h : Shifts f start start' count) (place : Nat) (hinner : inner = start + place)
    (hinner' : inner' = start' + place) (hle : place + length ≤ count) :
    Shifts f inner inner' length := by
  subst hinner hinner'
  intro offset hlt
  rw [Nat.add_assoc, Nat.add_assoc]
  exact h (place + offset) (by omega)

end Shifts

namespace Tree

variable {f : Nat → Nat}

mutual

/-- The steps of a term at other addresses are its steps with the addresses mapped. -/
theorem steps_moved (tree : Tree) (host : Nat) {base base' : Nat} (hbase : 0 < base)
    (hf : Shifts f base base' tree.cost) :
    tree.steps (f host) base' = (tree.steps host base).map (Step.moved f) := by
  cases tree with
  | era | var name | u32 value => rfl
  | ref name id? => cases id? <;> rfl
  | lam name body =>
    rw [cost_lam] at hf
    have hnode : f base = base' := hf.first (by omega)
    have hinside : f (base + 1) = base' + 1 := hf 1 (by omega)
    have hcells : Shifts f (base + 2) (base' + 2) body.cost := hf.part 2 rfl rfl (by omega)
    have hbody := steps_moved body (base + 1) (by omega) hcells
    rw [hinside] at hbody
    simp [steps, Step.moved, Binder.moved, Tag.moved, Tag.addresses, hnode, hbody]
  | app first second | sup label first second | op2 operator first second =>
    simp only [cost_app, cost_sup, cost_op2] at hf
    have hnode : f base = base' := hf.first (by omega)
    have hplace : f (base + 1) = base' + 1 := hf 1 (by omega)
    have hcells : Shifts f (base + 2) (base' + 2) first.cost := hf.part 2 rfl rfl (by omega)
    have hothers : Shifts f (base + 2 + first.cost) (base' + 2 + first.cost) second.cost :=
      hf.part (2 + first.cost) (by omega) (by omega) (by omega)
    have hfirst := steps_moved first base (by omega) hcells
    have hsecond := steps_moved second (base + 1) (by omega) hothers
    rw [hnode] at hfirst
    rw [hplace] at hsecond
    simp [steps, Step.moved, Tag.moved, Tag.addresses, hnode, hfirst, hsecond]
  | dup label first second value body =>
    rw [cost_dup] at hf
    have hnode : f base = base' := hf.first (by omega)
    have hslot : f (base + 1) = base' + 1 := hf 1 (by omega)
    have hplace : f (base + 2) = base' + 2 := hf 2 (by omega)
    have hcells : Shifts f (base + 3) (base' + 3) value.cost := hf.part 3 rfl rfl (by omega)
    have hothers : Shifts f (base + 3 + value.cost) (base' + 3 + value.cost) body.cost :=
      hf.part (3 + value.cost) (by omega) (by omega) (by omega)
    have hvalue := steps_moved value (base + 2) (by omega) hcells
    have hbody := steps_moved body host (by omega) hothers
    rw [hplace] at hvalue
    simp [steps, Step.moved, Binder.moved, Tag.moved, Tag.addresses, hnode, hslot, hvalue, hbody]
  | ctr id fields =>
    rw [cost_ctr] at hf
    have hplaces : Shifts f base base' fields.length := hf.part 0 rfl rfl (by omega)
    have hcells : Shifts f (base + fields.length) (base' + fields.length) (costOfFields fields) :=
      hf.part fields.length rfl rfl (by omega)
    have hfields := stepsOfFields_moved fields (by omega) hplaces hcells
    by_cases hempty : fields = []
    · subst hempty
      simp [steps, stepsOfFields, Step.moved, Tag.moved, Tag.addresses]
    · have hnode : f base = base' := hplaces.first (List.length_pos_iff.mpr hempty)
      have hne : base ≠ 0 := by omega
      simp [steps, Step.moved, Tag.moved, Tag.addresses, hempty, hne, hnode, hfields]
  | mat scrutinee arms =>
    rw [cost_mat] at hf
    have hnode : f base = base' := hf.first (by omega)
    have hcells : Shifts f (base + (1 + 2 * arms.length)) (base' + (1 + 2 * arms.length))
        scrutinee.cost := hf.part (1 + 2 * arms.length) rfl rfl (by omega)
    have hplaces : Shifts f (base + 1) (base' + 1) (2 * arms.length) :=
      hf.part 1 rfl rfl (by omega)
    have hothers : Shifts f (base + (1 + 2 * arms.length) + scrutinee.cost)
        (base' + (1 + 2 * arms.length) + scrutinee.cost) (costOfArms arms) :=
      hf.part (1 + 2 * arms.length + scrutinee.cost) (by omega) (by omega) (by omega)
    have hscrutinee := steps_moved scrutinee base (by omega) hcells
    have harms := stepsOfArms_moved arms (by omega) hplaces hothers
    rw [hnode] at hscrutinee
    simp [steps, Step.moved, Tag.moved, Tag.addresses, hnode, hscrutinee, harms]

theorem stepsOfFields_moved (fields : List Tree) {address address' base base' : Nat}
    (hbase : 0 < base) (hplaces : Shifts f address address' fields.length)
    (hf : Shifts f base base' (costOfFields fields)) :
    stepsOfFields fields address' base' =
      (stepsOfFields fields address base).map (Step.moved f) := by
  cases fields with
  | nil => rfl
  | cons field fields =>
    rw [costOfFields_cons] at hf
    rw [List.length_cons] at hplaces
    have hcells : Shifts f base base' field.cost := hf.part 0 rfl rfl (by omega)
    have hnext : Shifts f (address + 1) (address' + 1) fields.length :=
      hplaces.part 1 rfl rfl (by omega)
    have hothers : Shifts f (base + field.cost) (base' + field.cost) (costOfFields fields) :=
      hf.part field.cost rfl rfl (by omega)
    have hfield := steps_moved field address hbase hcells
    have hfields := stepsOfFields_moved fields (by omega) hnext hothers
    rw [hplaces.first (by omega)] at hfield
    rw [stepsOfFields, stepsOfFields, List.map_append, hfield, hfields]

theorem stepsOfArms_moved (arms : List (UInt32 × Tree)) {address address' base base' : Nat}
    (hbase : 0 < base) (hplaces : Shifts f address address' (2 * arms.length))
    (hf : Shifts f base base' (costOfArms arms)) :
    stepsOfArms arms address' base' = (stepsOfArms arms address base).map (Step.moved f) := by
  cases arms with
  | nil => rfl
  | cons arm arms =>
    obtain ⟨id, body⟩ := arm
    rw [costOfArms_cons] at hf
    rw [List.length_cons] at hplaces
    have hid : f address = address' := hplaces.first (by omega)
    have hinside : f (address + 1) = address' + 1 := hplaces 1 (by omega)
    have hcells : Shifts f base base' body.cost := hf.part 0 rfl rfl (by omega)
    have hnext : Shifts f (address + 2) (address' + 2) (2 * arms.length) :=
      hplaces.part 2 rfl rfl (by omega)
    have hothers : Shifts f (base + body.cost) (base' + body.cost) (costOfArms arms) :=
      hf.part body.cost rfl rfl (by omega)
    have hbody := steps_moved body (address + 1) hbase hcells
    have harms := stepsOfArms_moved arms (by omega) hnext hothers
    rw [hinside] at hbody
    simp [stepsOfArms, Step.moved, Tag.moved, Tag.addresses, hid, hbody, harms]

end

end Tree

/-! ## Addresses in marks -/

namespace Mark

variable (f : Nat → Nat)

/-- The mark with its addresses mapped. -/
def moved : Mark → Mark
  | block cells => block ⟨f cells.start, cells.length⟩
  | binder found => binder (found.moved f)
  | use name address => use name (f address)

theorem marks_map_moved (steps : List Step) :
    marks (steps.map (Step.moved f)) = (marks steps).map (Mark.moved f) := by
  induction steps with
  | nil => rfl
  | cons step steps ih =>
    have hmark : (step.moved f).mark? = step.mark?.map (Mark.moved f) := by cases step <;> rfl
    rw [List.map_cons, marks_cons, marks_cons, List.map_append, ih, hmark]
    cases step.mark? <;> rfl

theorem binders_map_moved (marks : List Mark) :
    binders (marks.map (moved f)) = (binders marks).map (Binder.moved f) := by
  induction marks with
  | nil => rfl
  | cons mark marks ih => cases mark <;> simp [moved, ih]

/-- A use belongs to the same binder, wherever the addresses are. -/
theorem resolve_map_moved (before after : List Mark) (name : String) :
    resolve (before.map (moved f)) (after.map (moved f)) name =
      (resolve before after name).map (Binder.moved f) := by
  have hname : ((fun found : Binder => decide (found.name = name)) ∘ Binder.moved f) =
      fun found => decide (found.name = name) := rfl
  simp only [resolve, lastBinder?, firstBinder?, binders_map_moved, ← List.map_reverse,
    List.find?_map, hname, Option.map_or]

end Mark

/-! ## What steps leave in the cells -/

/-- In the end some steps leave the word of these fields in the cell: it is stored there, or the
cell is the slot of a binder, or that of a use which belongs to a binder. -/
inductive Step.Leaves (steps : List Step) : Nat → Tag → Nat → Nat → Prop where
  | stored {address : Nat} {tag : Tag} {label payload : Nat} :
    .store address tag label payload ∈ steps → Leaves steps address tag label payload
  | slot {found : Binder} : .bind found ∈ steps → Leaves steps found.slot .sub 0 0
  | used {before after : List Step} {name : String} {address : Nat} {found : Binder} :
    steps = before ++ .use name address :: after →
      Mark.resolve (marks before) (marks after) name = some found →
      Leaves steps address found.tag found.label found.node

namespace Step

variable {f : Nat → Nat} {steps others : List Step} {heap heap' : Heap} {address : Nat} {tag : Tag}
  {label payload : Nat}

theorem Settled.holds_of_leaves (h : Settled heap steps)
    (hleaves : Leaves steps address tag label payload) :
    heap.Holds address tag label payload := by
  cases hleaves with
  | stored hmem => exact h.stored address tag label payload hmem
  | slot hmem => exact h.slots _ hmem
  | used hsplit hresolve => exact h.used _ _ _ _ _ hsplit hresolve

/-- Moved steps leave the moved words in the moved cells. -/
theorem Leaves.moved (h : Leaves steps address tag label payload) (f : Nat → Nat) :
    Leaves (steps.map (Step.moved f)) (f address) tag label (tag.moved f payload) := by
  cases h with
  | stored hmem => exact .stored (List.mem_map_of_mem hmem)
  | @slot found hmem =>
    have hbind : .bind (found.moved f) ∈ steps.map (Step.moved f) :=
      List.mem_map.mpr ⟨_, hmem, rfl⟩
    exact .slot hbind
  | @used before after name _ found hsplit hresolve =>
    subst hsplit
    have hmoved : Mark.resolve (marks (before.map (Step.moved f)))
        (marks (after.map (Step.moved f))) name = some (found.moved f) := by
      rw [Mark.marks_map_moved, Mark.marks_map_moved, Mark.resolve_map_moved, hresolve,
        Option.map_some]
    exact .used (by rw [List.map_append, List.map_cons]; rfl) hmoved

/-- Where one heap holds what is left in a cell and another one what the moved steps leave, the word
in the second is that in the first, moved. -/
theorem getElem?_moved (hholds : heap.Holds address tag label payload)
    (hmoved : heap'.Holds (f address) tag label (tag.moved f payload)) :
    heap'.cells[f address]? = heap.cells[address]?.map (Word.moved f) := by
  obtain ⟨word, hword, hcell⟩ := hholds
  obtain ⟨word', hword', hcell'⟩ := hmoved
  obtain ⟨hfits, heq⟩ := Option.ite_none_right_eq_some.mp hword
  obtain ⟨-, heq'⟩ := Option.ite_none_right_eq_some.mp hword'
  rw [hcell, hcell', ← Option.some.inj heq, ← Option.some.inj heq', Option.map_some,
    Word.moved_pack f hfits.2]

end Step

namespace Tree

variable {tree : Tree} {heap heap' left left' : Heap} {host host' address : Nat} {root root' : Word}
  {f : Nat → Nat}

/-- Every cell of a unit that is written has its word from some step. -/
theorem exists_leaves_of_injectAt (h : tree.injectAt host heap = .ok root left)
    (hmem : address ∈ targets (tree.steps host heap.size)) :
    ∃ tag label payload, Leaves (tree.steps host heap.size) address tag label payload := by
  obtain ⟨step, hstep, htarget⟩ := mem_targets_iff.mp hmem
  cases step with
  | check tag value | reserve cells => cases htarget
  | unlinked name place =>
    obtain ⟨hready, -⟩ := injectAt_eq_ok_iff.mp h
    obtain ⟨before, after, hsplit⟩ := List.append_of_mem hstep
    rw [hsplit, readyAll_append] at hready
    exact hready.2.1.1.elim
  | bind found =>
    cases htarget
    exact ⟨_, _, _, .slot hstep⟩
  | use name place =>
    cases htarget
    obtain ⟨before, after, hsplit⟩ := List.append_of_mem hstep
    obtain ⟨found, hresolve⟩ := resolve_of_injectAt h hsplit
    exact ⟨_, _, _, .used hsplit hresolve⟩
  | store place tag label payload =>
    cases htarget
    exact ⟨_, _, _, .stored hstep⟩

/-- The cell belongs to the term that is written into the cell `host` of a heap with `base` cells:
it is the host or a fresh cell. -/
def Owns (tree : Tree) (host base address : Nat) : Prop :=
  address = host ∨ base ≤ address ∧ address < base + tree.cost

instance (tree : Tree) (host base : Nat) : DecidablePred (tree.Owns host base) := fun address =>
  inferInstanceAs (Decidable (address = host ∨ base ≤ address ∧ address < base + tree.cost))

theorem mem_targets_steps_iff :
    address ∈ targets (tree.steps host heap.size) ↔ tree.Owns host heap.size address := by
  rw [(tree.targets_steps_perm host heap.size).mem_iff, List.mem_cons, List.mem_range'_1, Owns]

/-- A unit that is written at two places leaves the same words there, up to their addresses. -/
theorem getElem?_moved_of_injectAt (hhost : host < heap.size) (hhost' : f host < heap'.size)
    (hf : Shifts f heap.size heap'.size tree.cost) (h : tree.injectAt host heap = .ok root left)
    (h' : tree.injectAt (f host) heap' = .ok root' left')
    (haddress : tree.Owns host heap.size address) :
    left'.cells[f address]? = left.cells[address]?.map (Word.moved f) := by
  obtain ⟨tag, label, payload, hleaves⟩ :=
    exists_leaves_of_injectAt h (mem_targets_steps_iff.mpr haddress)
  have hmoved := hleaves.moved f
  rw [← tree.steps_moved host (by omega) hf] at hmoved
  exact getElem?_moved ((settled_of_injectAt hhost h).holds_of_leaves hleaves)
    ((settled_of_injectAt hhost' h').holds_of_leaves hmoved)

/-- A unit that is written behind `distance` more cells is the same unit, with the distance added to
its addresses. -/
theorem getElem?_of_injectAt_behind {distance : Nat} (hhost : host < heap.size)
    (hsize : heap'.size = heap.size + distance) (h : tree.injectAt host heap = .ok root left)
    (h' : tree.injectAt (host + distance) heap' = .ok root' left')
    (haddress : tree.Owns host heap.size address) :
    left'.cells[address + distance]? = left.cells[address]?.map (Word.moved (· + distance)) := by
  have hf : Shifts (fun address => address + distance) heap.size heap'.size tree.cost := by
    intro place _
    simp only [hsize]
    omega
  have hhost' : (fun address => address + distance) host < heap'.size := by
    simp only [hsize]
    omega
  exact getElem?_moved_of_injectAt hhost hhost' hf h h' haddress

/-- A map that leaves the cells of a term where they are and moves every other address. -/
def displaceOthers (tree : Tree) (host base address : Nat) : Nat :=
  if tree.Owns host base address then address else address + 1

theorem displaceOthers_of_owns {base : Nat} (h : tree.Owns host base address) :
    tree.displaceOthers host base address = address :=
  if_pos h

/-- The words of a unit point at its own cells.  If all other addresses were different, the unit
would be written by the same steps, so its words do not depend on any of them. -/
theorem owns_payload_of_injectAt {word : Word} (hhost : host < heap.size)
    (h : tree.injectAt host heap = .ok root left) (haddress : tree.Owns host heap.size address)
    (hcell : left.cells[address]? = some word) (hpointer : word.isPointer) :
    tree.Owns host heap.size word.payload := by
  have hf : Shifts (tree.displaceOthers host heap.size) heap.size heap.size tree.cost :=
    fun place hlt => displaceOthers_of_owns (.inr ⟨Nat.le_add_right _ _, by omega⟩)
  have hroot : tree.displaceOthers host heap.size host = host := displaceOthers_of_owns (.inl rfl)
  have hword := getElem?_moved_of_injectAt hhost (hroot.symm ▸ hhost) hf h (hroot.symm ▸ h) haddress
  rw [displaceOthers_of_owns haddress, hcell, Option.map_some, Word.moved, if_pos hpointer] at hword
  have hpayload := congrArg Word.payload (Option.some.inj hword)
  rw [Word.withPayload, Word.payload_ofFields] at hpayload
  by_contra hother
  have hlt := word.payload_lt
  rw [displaceOthers, if_neg hother] at hpayload
  simp only [Word.payloadLimit] at hpayload hlt
  omega

end Tree

end InteractionGraph
