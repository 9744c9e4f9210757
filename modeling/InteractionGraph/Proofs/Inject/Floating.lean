import InteractionGraph.Proofs.Inject.Frame
import InteractionGraph.Proofs.Inject.Layers
import InteractionGraph.Proofs.Inject.Outcome
import Mathlib.Logic.Equiv.Defs

/-!
# Duplications float

A duplication writes its body into its own host, so it stands in the way of nothing: where it is in
a term decides which cells it gets, but not what is in them.  Moving it over the node that it is a
part of changes the heap only by the names of some cells (`Tree.injectAt_of_floating_dup`).

The steps of the term are those of the other one in another order and with some addresses exchanged
(`Tree.Rearranged`).  The layers around it keep that.  The order does not matter where each name has
at most one binder, because a use then belongs to the binder of its name wherever it is, and so the
words that steps leave in the cells can be told from the steps alone (`Step.Leaves.of_perm`).
-/

namespace InteractionGraph

open Step

/-- The name that is bound. -/
def Request.boundName? : Request → Option String
  | bind name => some name
  | _ => none

/-! ## Steps in another order -/

namespace Step

variable {steps others : List Step} {address label payload : Nat} {tag : Tag}

/-- Every name has at most one binder. -/
def BindOnce (steps : List Step) : Prop :=
  ∀ found other, .bind found ∈ steps → .bind other ∈ steps → found.name = other.name →
    found = other

/-- Where every name has at most one binder, what steps leave does not depend on their order. -/
theorem Leaves.of_perm (honce : BindOnce others) (hperm : others.Perm steps)
    (h : Leaves steps address tag label payload) : Leaves others address tag label payload := by
  cases h with
  | stored hstore => exact .stored (hperm.mem_iff.mpr hstore)
  | slot hbind => exact .slot (hperm.mem_iff.mpr hbind)
  | @used before after name _ found hsplit hresolve =>
    have huse : .use name address ∈ others := hperm.mem_iff.mpr (by simp [hsplit])
    obtain ⟨before', after', hsplit'⟩ := List.append_of_mem huse
    have hbind : .bind found ∈ others := by
      rw [hperm.mem_iff, hsplit]
      exact mem_binders_iff.mp (mem_binders_marks_of_resolve hresolve)
    have hname : found.name = name := Mark.name_of_resolve hresolve
    -- In the other order the use belongs to some binder of its name, and there is only one.
    cases hresolve' : Mark.resolve (marks before') (marks after') name with
    | none =>
      have hnone := lastBinder?_eq_none_of_resolve address hresolve'
      rw [← hsplit', Mark.lastBinder?_eq_none_iff] at hnone
      exact absurd hname (hnone found (mem_binders_iff.mpr hbind))
    | some other =>
      have hbind' : .bind other ∈ others := by
        rw [hsplit']
        exact mem_binders_iff.mp (mem_binders_marks_of_resolve hresolve')
      obtain rfl : found = other :=
        honce found other hbind hbind' (hname.trans (Mark.name_of_resolve hresolve').symm)
      exact .used hsplit' hresolve'

@[simp]
theorem requests_map_moved (f : Nat → Nat) (steps : List Step) :
    requests (steps.map (Step.moved f)) = requests steps := by
  have hrequest : Step.request? ∘ Step.moved f = Step.request? := by
    funext step
    cases step <;> rfl
  rw [requests, List.filterMap_map, hrequest, requests]

end Step

namespace Tree

/-! ## Some cells exchanged -/

/-- Where an address goes if `first` addresses from `base` on are exchanged with `second` addresses
behind them. -/
def exchanged (base first second address : Nat) : Nat :=
  if address < base then address
  else if address < base + first then address + second
  else if address < base + first + second then address - first
  else address

theorem exchanged_exchanged (base first second address : Nat) :
    exchanged base second first (exchanged base first second address) = address := by
  unfold exchanged
  split_ifs <;> omega

/-- The permutation that exchanges `first` addresses from `base` on with `second` addresses behind
them. -/
def exchange (base first second : Nat) : Equiv.Perm Nat where
  toFun := exchanged base first second
  invFun := exchanged base second first
  left_inv := exchanged_exchanged base first second
  right_inv := exchanged_exchanged base second first

section Exchange

variable {base first second address : Nat}

theorem exchange_of_lt (h : address < base) : exchange base first second address = address :=
  if_pos h

theorem exchange_of_le (h : base + first + second ≤ address) :
    exchange base first second address = address := by
  simp only [exchange, Equiv.coe_fn_mk, exchanged]
  split_ifs <;> omega

theorem shifts_exchange_first (base first second : Nat) :
    Shifts (exchange base first second) base (base + second) first := by
  intro place hlt
  simp only [exchange, Equiv.coe_fn_mk, exchanged]
  split_ifs <;> omega

theorem shifts_exchange_second (base first second : Nat) :
    Shifts (exchange base first second) (base + first) base second := by
  intro place hlt
  simp only [exchange, Equiv.coe_fn_mk, exchanged]
  split_ifs <;> omega

theorem shifts_exchange_behind {start : Nat} (h : base + first + second ≤ start) (count : Nat) :
    Shifts (exchange base first second) start start count :=
  fun _ _ => exchange_of_le (by omega)

end Exchange

/-- The other term costs as much, and its steps are the same up to their order and to the addresses
of some of the cells that they hand out. -/
structure Rearranged (tree other : Tree) : Prop where
  cost_eq : other.cost = tree.cost
  steps : ∀ host base, host < base → ∃ f : Equiv.Perm Nat,
    (∀ address, address < base ∨ base + tree.cost ≤ address → f address = address) ∧
      (other.steps host base).Perm ((tree.steps host base).map (Step.moved f))

variable {tree other : Tree}

/-- What is done inside a layer does not matter to the layer. -/
theorem Rearranged.plug (h : Rearranged tree other) (layer : Layer) :
    Rearranged (layer.plug tree) (layer.plug other) where
  cost_eq := by rw [Layer.cost_plug, Layer.cost_plug, h.cost_eq]
  steps := by
    intro host base hhost
    obtain ⟨f, hfixed, hperm⟩ := h.steps _ _ (layer.hole_lt hhost)
    refine ⟨f, ?_, ?_⟩
    · intro address haddress
      rw [Layer.cost_plug] at haddress
      exact hfixed address (by omega)
    · have hblock : Shifts f base base layer.costBefore :=
        fun place hlt => hfixed _ (.inl (by omega))
      have hbehind : Shifts f (base + layer.costBefore + tree.cost)
          (base + layer.costBefore + tree.cost) layer.costAfter :=
        fun place _ => hfixed _ (.inr (by omega))
      have hroot : f host = host := hfixed host (.inl (by omega))
      have hbefore := layer.before_moved (by omega) hblock
      have hafter := layer.after_moved host (by omega) (by omega) hblock hbehind
      rw [hroot] at hafter
      rw [Layer.steps_plug, Layer.steps_plug, h.cost_eq, List.map_append, List.map_append,
        ← hbefore, ← hafter]
      exact (hperm.append_right _).append_left _

theorem Rearranged.within (h : Rearranged tree other) (layers : List Layer) :
    Rearranged (Tree.within layers tree) (Tree.within layers other) := by
  induction layers with
  | nil => exact h
  | cons layer layers ih => exact ih.plug layer

/-- Nothing is left to do for a duplication once its body is written. -/
theorem steps_dup (label : UInt32) (first second : String) (value body : Tree) (host base : Nat) :
    (dup label first second value body).steps host base =
      (Layer.dupBody label first second value).before base ++
        body.steps host (base + (3 + value.cost)) := by
  have hsteps := (Layer.dupBody label first second value).steps_plug body host base
  simpa [Layer.plug, Layer.hole, Layer.after, Layer.costBefore] using hsteps

/-- A duplication inside a layer takes its cells behind some of those of the layer.  Around the
layer it takes them first. -/
theorem rearranged_dup (layer : Layer) (label : UInt32) (first second : String)
    (value body : Tree) :
    Rearranged (layer.plug (.dup label first second value body))
      (.dup label first second value (layer.plug body)) where
  cost_eq := by
    rw [cost_dup, Layer.cost_plug, Layer.cost_plug, cost_dup]
    omega
  steps := by
    intro host base hhost
    refine ⟨exchange base layer.costBefore (3 + value.cost), ?_, ?_⟩
    · intro address haddress
      rw [Layer.cost_plug, cost_dup] at haddress
      rcases haddress with hlt | hle
      · exact exchange_of_lt hlt
      · exact exchange_of_le (by omega)
    · have hbase : 0 < base := by omega
      have hblock := shifts_exchange_first base layer.costBefore (3 + value.cost)
      have hcells := shifts_exchange_second base layer.costBefore (3 + value.cost)
      have hroot : exchange base layer.costBefore (3 + value.cost) host = host :=
        exchange_of_lt hhost
      have hinner : Shifts (exchange base layer.costBefore (3 + value.cost))
          (base + layer.costBefore + (3 + value.cost)) (base + layer.costBefore + (3 + value.cost))
          body.cost := shifts_exchange_behind (Nat.le_refl _) _
      have hbehind : Shifts (exchange base layer.costBefore (3 + value.cost))
          (base + layer.costBefore + (3 + value.cost + body.cost))
          (base + layer.costBefore + (3 + value.cost + body.cost)) layer.costAfter :=
        shifts_exchange_behind (by omega) _
      have hbefore := layer.before_moved hbase hblock
      have hdup : (Layer.dupBody label first second value).before base = _ :=
        Layer.before_moved _ (by omega) hcells
      have hhole := layer.hole_moved host hblock
      have hbody := body.steps_moved (layer.hole host base) (by omega) hinner
      have hafter := layer.after_moved host hbase (by omega) hblock hbehind
      rw [hroot] at hhole hafter
      rw [steps_dup, Layer.steps_plug, Layer.steps_plug, steps_dup, cost_dup, List.map_append,
        List.map_append, List.map_append, ← hbefore, ← hdup, ← hbody, ← hhole, ← hafter,
        Nat.add_right_comm base layer.costBefore, ← Nat.add_assoc (base + layer.costBefore),
        Nat.add_right_comm base layer.costBefore, List.append_assoc]
      exact List.perm_append_comm_assoc _ _ _

/-! ## Names that are bound once -/

/-- Every name has at most one binder. -/
def BindsOnce (tree : Tree) : Prop := (tree.nodes.flatMap boundNames).Nodup

instance (tree : Tree) : Decidable tree.BindsOnce :=
  inferInstanceAs (Decidable (tree.nodes.flatMap boundNames).Nodup)

theorem filterMap_boundName?_requests (tree : Tree) :
    tree.requests.filterMap Request.boundName? = tree.nodes.flatMap boundNames := by
  have hnode : ∀ node : Tree, node.ownRequests.filterMap Request.boundName? = node.boundNames := by
    intro node
    cases node with
    | ref name id? => cases id? <;> rfl
    | ctr id fields =>
      by_cases hempty : fields = [] <;>
        simp [ownRequests, boundNames, Request.boundName?, hempty]
    | _ => rfl
  rw [requests, List.filterMap_flatMap]
  simp only [hnode]

theorem BindsOnce.bindOnce (h : tree.BindsOnce) (host base : Nat) :
    BindOnce (tree.steps host base) := by
  rw [BindsOnce, ← filterMap_boundName?_requests, ← requests_steps tree host base,
    Step.requests, List.filterMap_filterMap] at h
  intro found other hfound hother hname
  have hsame := eq_of_nodup_filterMap h hfound hother rfl (congrArg some hname.symm)
  cases hsame
  rfl

/-! ## Rearranged terms -/

namespace Rearranged

variable {heap left right : Heap} {host : Nat} {root root' : Word}

theorem requests_perm (h : Rearranged tree other) : other.requests.Perm tree.requests := by
  obtain ⟨f, -, hperm⟩ := h.steps 0 1 Nat.one_pos
  have hrequests : (Step.requests (other.steps 0 1)).Perm _ := hperm.filterMap request?
  rwa [← Step.requests, requests_map_moved, requests_steps, requests_steps] at hrequests

theorem bindsOnce (h : Rearranged tree other) (honce : tree.BindsOnce) : other.BindsOnce := by
  rw [BindsOnce, ← filterMap_boundName?_requests] at honce ⊢
  exact (h.requests_perm.filterMap _).nodup_iff.mpr honce

/-- A rearranged term is written where the term is. -/
theorem exists_injectAt_eq_ok_iff (h : Rearranged tree other) (hvalid : heap.Valid)
    (hhost : host < heap.size) :
    (∃ root left, tree.injectAt host heap = .ok root left) ↔
      ∃ root right, other.injectAt host heap = .ok root right := by
  have hclosed : tree.Closed ↔ other.Closed := by
    simp only [Closed, ← use_mem_requests_iff, ← bind_mem_requests_iff, h.requests_perm.mem_iff]
  have hgranted : firstError? heap.capacity heap.size tree.requests = none ↔
      firstError? heap.capacity heap.size other.requests = none := by
    simp only [firstError?_eq_none_iff hvalid.1, h.requests_perm.mem_iff,
      (h.requests_perm.map Request.cellCount).sum_eq]
  rw [Tree.exists_injectAt_eq_ok_iff hvalid hhost, Tree.exists_injectAt_eq_ok_iff hvalid hhost,
    hclosed, hgranted]

end Rearranged

end Tree

/-! ## Heaps up to the addresses of fresh cells -/

/-- The two heaps differ in the order of their cells from `base` on, which `f` maps from the one to
the other.  The words in these cells, and in the cell `host`, are the same but for their addresses,
which `f` maps as well.  The other cells are the same. -/
structure Heap.Renumbers (f : Equiv.Perm Nat) (host base : Nat) (left right : Heap) : Prop where
  size_eq : right.size = left.size
  fixed : ∀ address, address < base ∨ left.size ≤ address → f address = address
  written : ∀ address, address = host ∨ base ≤ address ∧ address < left.size →
    right.cells[f address]? = left.cells[address]?.map (Word.moved f)
  kept : ∀ address < base, address ≠ host → right.cells[address]? = left.cells[address]?

namespace Tree

variable {tree other : Tree} {heap left right : Heap} {host : Nat} {root root' : Word}

theorem Rearranged.exists_renumbers (h : Rearranged tree other) (honce : tree.BindsOnce)
    (hhost : host < heap.size) (hleft : tree.injectAt host heap = .ok root left)
    (hright : other.injectAt host heap = .ok root' right) :
    ∃ f, Heap.Renumbers f host heap.size left right := by
  obtain ⟨f, hfixed, hperm⟩ := h.steps host heap.size hhost
  have hsize : left.size = heap.size + tree.cost := size_of_injectAt hleft
  refine ⟨f, ?_, ?_, ?_, ?_⟩
  · rw [hsize, size_of_injectAt hright, h.cost_eq]
  · rwa [hsize]
  · intro address howns
    rw [hsize] at howns
    obtain ⟨tag, label, payload, hleaves⟩ :=
      exists_leaves_of_injectAt hleft (mem_targets_steps_iff.mpr howns)
    have hother := (hleaves.moved f).of_perm ((h.bindsOnce honce).bindOnce host heap.size) hperm
    exact getElem?_moved ((settled_of_injectAt hhost hleft).holds_of_leaves hleaves)
      ((settled_of_injectAt hhost hright).holds_of_leaves hother)
  · intro address hlt hne
    have hkeptLeft := tree.keeps_injectAt host heap
    have hkeptRight := other.keeps_injectAt host heap
    rw [hleft] at hkeptLeft
    rw [hright] at hkeptRight
    exact (hkeptRight.getElem?_eq address hlt hne).trans
      (hkeptLeft.getElem?_eq address hlt hne).symm

/-! ## Duplications -/

/-- A duplication that is a part of some node can be moved over the node.  The term is then written
in the same cases, and into the same heap up to the addresses of the fresh cells, as long as no name
has two binders.  The host has to be in use before, as it is written last: a host among the fresh
cells would be written over. -/
theorem injectAt_of_floating_dup (layers : List Layer) (layer : Layer) (label : UInt32)
    (first second : String) (value body : Tree)
    (honce : (within layers (layer.plug (.dup label first second value body))).BindsOnce)
    (hvalid : heap.Valid) (hhost : host < heap.size) :
    ((∃ root left, (within layers (layer.plug (.dup label first second value body))).injectAt host
        heap = .ok root left) ↔
      ∃ root right, (within layers (.dup label first second value (layer.plug body))).injectAt host
        heap = .ok root right) ∧
    ∀ root left root' right,
      (within layers (layer.plug (.dup label first second value body))).injectAt host heap =
        .ok root left →
      (within layers (.dup label first second value (layer.plug body))).injectAt host heap =
        .ok root' right →
        ∃ f, Heap.Renumbers f host heap.size left right := by
  have hrearranged := (rearranged_dup layer label first second value body).within layers
  refine ⟨hrearranged.exists_injectAt_eq_ok_iff hvalid hhost, ?_⟩
  intro root left root' right hleft hright
  exact hrearranged.exists_renumbers honce hhost hleft hright

/-- In the argument of an application the duplication comes after the use of `a` in the function,
which has to wait for it.  Moved over the application it comes first. -/
theorem injectAt_of_floating_dup_argument :
    (within [] (Layer.plug (.appArgument (.var "a"))
      (.dup 0 "a" "b" .era (.var "b")))).BindsOnce ∧
    Heap.Valid ⟨#[.void], 6⟩ ∧ 0 < Heap.size ⟨#[.void], 6⟩ ∧
      ∃ f, Heap.Renumbers f 0 1
        ⟨#[.pack .app 0 1, .pack .dp0 0 3, .pack .dp1 0 3, .sub, .sub, .era], 6⟩
        ⟨#[.pack .app 0 4, .sub, .sub, .era, .pack .dp0 0 1, .pack .dp1 0 1], 6⟩ := by
  have honce : (within [] (Layer.plug (.appArgument (.var "a"))
      (.dup 0 "a" "b" .era (.var "b")))).BindsOnce := by decide
  have hvalid : Heap.Valid ⟨#[.void], 6⟩ := by decide
  have hhost : 0 < Heap.size ⟨#[.void], 6⟩ := by decide
  have hfloating := injectAt_of_floating_dup [] (.appArgument (.var "a")) 0 "a" "b" .era (.var "b")
    honce hvalid hhost
  have hleft : (Tree.app (.var "a") (.dup 0 "a" "b" .era (.var "b"))).injectAt 0 ⟨#[.void], 6⟩ =
      .ok (.pack .app 0 1)
        ⟨#[.pack .app 0 1, .pack .dp0 0 3, .pack .dp1 0 3, .sub, .sub, .era], 6⟩ := rfl
  have hright : (Tree.dup 0 "a" "b" .era (.app (.var "a") (.var "b"))).injectAt 0 ⟨#[.void], 6⟩ =
      .ok (.pack .app 0 4)
        ⟨#[.pack .app 0 4, .sub, .sub, .era, .pack .dp0 0 1, .pack .dp1 0 1], 6⟩ := rfl
  exact ⟨honce, hvalid, hhost, hfloating.2 _ _ _ _ hleft hright⟩

end Tree

end InteractionGraph
