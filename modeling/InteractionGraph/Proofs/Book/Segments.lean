import InteractionGraph.Proofs.Inject.Frame
import InteractionGraph.Proofs.Inject.Outcome
import InteractionGraph.Proofs.Inject.Relocation

/-!
# The segments of definitions

When the definitions of a book are written, each of them gets a segment of the heap: its host and,
behind it, the cells of its term.  `Tree.Occupies` says what is in a segment.  Its pointers stay
inside, and it is a copy of what the term would be on an empty heap, with the start of the segment
added to every address.  So a segment tells nothing of the other definitions, nor of what was in the
heap before.

What a later definition does leaves a segment as it is, even if it fails
(`Tree.Occupies.of_keeps`), so a run that fails has written all definitions before the one that it
fails at.
-/

namespace InteractionGraph

namespace Tree

/-- Writes the term as a unit into a cell that is handed out for it. -/
def injectFresh (tree : Tree) : HeapAction Word := HeapAction.alloc 1 >>= tree.injectAt

/-- The unit is found in the cells from `start` up to `stop`, and `root` is the word of its host. -/
structure Occupies (tree : Tree) (heap : Heap) (start stop : Nat) (root : Word) : Prop where
  extent : stop = start + 1 + tree.cost
  stop_le : stop ≤ heap.size
  root : heap.cells[start]? = some root
  /-- The pointers stay inside. -/
  pointers : ∀ address word, start ≤ address → address < stop →
    heap.cells[address]? = some word → word.isPointer →
      start ≤ word.payload ∧ word.payload < stop
  /-- On an empty heap with room for it the unit can be written alone, and the cells there hold the
  same words, up to their addresses. -/
  alone : ∀ capacity, stop - start ≤ capacity → capacity ≤ Word.payloadLimit →
    ∃ root' alone, tree.injectFresh ⟨#[], capacity⟩ = .ok root' alone ∧
      alone.size = stop - start ∧
      ∀ offset < stop - start,
        heap.cells[start + offset]? = alone.cells[offset]?.map (Word.moved (· + start))

/-! ## One unit -/

variable {tree : Tree} {start stop : Nat} {heap left : Heap} {root : Word}

/-- A segment does not change while all cells of the heap are kept. -/
theorem Occupies.of_keeps (h : tree.Occupies heap start stop root)
    (hkeeps : heap.Keeps (fun _ => True) left) : tree.Occupies left start stop root := by
  have hcell : ∀ address < stop, left.cells[address]? = heap.cells[address]? :=
    fun address hlt => hkeeps.getElem?_eq address (Nat.lt_of_lt_of_le hlt h.stop_le) trivial
  have hextent := h.extent
  refine ⟨h.extent, Nat.le_trans h.stop_le hkeeps.size_le, ?_, ?_, ?_⟩
  · rw [hcell start (by omega)]
    exact h.root
  · intro address word hle hlt hword
    rw [hcell address hlt] at hword
    exact h.pointers address word hle hlt hword
  · intro capacity hroom hlimit
    obtain ⟨root', alone, hinject, hsize, hcells⟩ := h.alone capacity hroom hlimit
    refine ⟨root', alone, hinject, hsize, fun offset hlt => ?_⟩
    rw [hcell (start + offset) (by omega)]
    exact hcells offset hlt

theorem injectFresh_eq_ok_iff :
    tree.injectFresh heap = .ok root left ↔
      heap.size + 1 ≤ heap.capacity ∧ tree.injectAt heap.size (heap.grow 1) = .ok root left := by
  rw [injectFresh, bind_eq_ok_iff]
  constructor
  · rintro ⟨_, _, halloc, hunit⟩
    obtain ⟨hroom, rfl, rfl⟩ := Heap.alloc_eq_ok_grow_iff.mp (HeapAction.of_ofChange_eq_ok halloc)
    exact ⟨hroom, hunit⟩
  · rintro ⟨hroom, hunit⟩
    refine ⟨heap.size, heap.grow 1, ?_, hunit⟩
    have halloc := Heap.alloc_eq_ok_grow_iff.mpr ⟨hroom, rfl, rfl⟩
    simp only [HeapAction.alloc, HeapAction.ofChange, halloc]

/-- Whether a unit can be written does not depend on what is in the heap but for the room. -/
theorem exists_injectFresh_empty {capacity : Nat} (hvalid : heap.Valid)
    (h : tree.injectFresh heap = .ok root left) (hcapacity : 1 + tree.cost ≤ capacity)
    (hlimit : capacity ≤ Word.payloadLimit) :
    ∃ root' alone, tree.injectFresh ⟨#[], capacity⟩ = .ok root' alone := by
  obtain ⟨hroom, hunit⟩ := injectFresh_eq_ok_iff.mp h
  have hgrown := Heap.valid_grow hvalid hroom
  have hroom' : Heap.size ⟨#[], capacity⟩ + 1 ≤ capacity := by
    change 0 + 1 ≤ capacity
    omega
  have hgrown' : ((⟨#[], capacity⟩ : Heap).grow 1).Valid :=
    Heap.valid_grow ⟨Nat.zero_le _, hlimit⟩ hroom'
  have hhost : Heap.size ⟨#[], capacity⟩ < ((⟨#[], capacity⟩ : Heap).grow 1).size := by simp
  obtain ⟨hgranted, hclosed⟩ :=
    (exists_injectAt_eq_ok_iff hgrown (by simp)).mp ⟨root, left, hunit⟩
  obtain ⟨hfit, hlinked, -⟩ := (firstError?_requests_eq_none_iff hgrown.1).mp hgranted
  have hgranted' := (firstError?_requests_eq_none_iff hgrown'.1).mpr
    ⟨hfit, hlinked, by rwa [Heap.size_grow]⟩
  obtain ⟨root', alone, hunit'⟩ :=
    (exists_injectAt_eq_ok_iff hgrown' hhost).mpr ⟨hgranted', hclosed⟩
  exact ⟨root', alone, injectFresh_eq_ok_iff.mpr ⟨hroom', hunit'⟩⟩

theorem owns_grow_one_iff {host address : Nat} :
    tree.Owns host (heap.grow 1).size address ↔
      address = host ∨ heap.size + 1 ≤ address ∧ address < heap.size + 1 + tree.cost := by
  rw [Owns, Heap.size_grow]

theorem size_of_injectFresh (h : tree.injectFresh heap = .ok root left) :
    left.size = heap.size + 1 + tree.cost := by
  rw [size_of_injectAt (injectFresh_eq_ok_iff.mp h).2, Heap.size_grow]

theorem valid_of_injectFresh (hvalid : heap.Valid) (h : tree.injectFresh heap = .ok root left) :
    left.Valid := by
  obtain ⟨hroom, hunit⟩ := injectFresh_eq_ok_iff.mp h
  have hhost : heap.size < (heap.grow 1).size := by simp
  have hafter := tree.valid_injectAt (Heap.valid_grow hvalid hroom) hhost
  rwa [hunit] at hafter

/-- A unit that is written occupies the cells that were handed out for it. -/
theorem occupies_of_injectFresh (hvalid : heap.Valid)
    (h : tree.injectFresh heap = .ok root left) :
    tree.Occupies left heap.size (heap.size + 1 + tree.cost) root := by
  obtain ⟨hroom, hunit⟩ := injectFresh_eq_ok_iff.mp h
  have hhost : heap.size < (heap.grow 1).size := by simp
  refine ⟨rfl, (size_of_injectFresh h).ge, (injectAt_eq_ok_iff.mp hunit).2.2.2, ?_, ?_⟩
  · intro address word hle hlt hcell hpointer
    have howns : tree.Owns heap.size (heap.grow 1).size address :=
      owns_grow_one_iff.mpr (by omega)
    have hinside := owns_grow_one_iff.mp (owns_payload_of_injectAt hhost hunit howns hcell hpointer)
    omega
  · intro capacity hcapacity hlimit
    have hcount : heap.size + 1 + tree.cost - heap.size = 1 + tree.cost := by omega
    rw [hcount] at hcapacity ⊢
    obtain ⟨root', alone, halone⟩ := exists_injectFresh_empty hvalid h hcapacity hlimit
    obtain ⟨-, hunit'⟩ := injectFresh_eq_ok_iff.mp halone
    have hsize : Heap.size ⟨#[], capacity⟩ = 0 := rfl
    rw [hsize] at hunit'
    refine ⟨root', alone, halone, (size_of_injectFresh halone).trans (by rw [hsize]), ?_⟩
    intro offset hlt
    have howns : tree.Owns 0 ((⟨#[], capacity⟩ : Heap).grow 1).size offset :=
      owns_grow_one_iff.mpr (by rw [hsize]; omega)
    have hbehind : (heap.grow 1).size = ((⟨#[], capacity⟩ : Heap).grow 1).size + heap.size := by
      rw [Heap.size_grow, Heap.size_grow, hsize]
      omega
    rw [← Nat.zero_add heap.size] at hunit
    rw [Nat.add_comm heap.size]
    exact getElem?_of_injectAt_behind (by simp) hbehind hunit' hunit howns

end Tree

namespace Book

variable {book : Book} {place : Nat} {heap left : Heap} {root : Word}

/-! ## One definition after the other -/

theorem inject_eq_injectFresh {name : String} {tree : Tree}
    (htree : book.definitions[place]? = some (name, tree)) (hplace : place < UInt32.size)
    (heap : Heap) : book.inject (UInt32.ofNat place) heap = tree.injectFresh heap := by
  have hid : (UInt32.ofNat place).toNat = place := by
    rw [UInt32.toNat_ofNat', Nat.mod_eq_of_lt hplace]
  rw [inject_eq, hid, htree]
  rfl

/-- Where a definition is written, there was a cell left for it. -/
theorem size_lt_of_inject {id : UInt32} (h : book.inject id heap = .ok root left) :
    heap.size < heap.capacity := by
  rw [inject_eq] at h
  cases hfound : book.definitions[id.toNat]? with
  | none =>
    rw [hfound] at h
    cases h
  | some definition =>
    rw [hfound] at h
    exact (Tree.injectFresh_eq_ok_iff.mp h).1

theorem injectEach_cons_of_ok {id : UInt32} {ids : List UInt32} {roots : List Word}
    {between : Heap} (hfirst : book.inject id heap = .ok root between)
    (hothers : book.injectEach ids between = .ok roots left) :
    book.injectEach (id :: ids) heap = .ok (root :: roots) left := by
  rw [injectEach_cons]
  exact bind_eq_ok_iff.mpr ⟨root, between, hfirst, bind_eq_ok_iff.mpr ⟨roots, left, hothers, rfl⟩⟩

/-- The number of cells in the heap when the definitions before the given place were written, where
there were `size` of them before. -/
def sizeAt (book : Book) (size place : Nat) : Nat :=
  size + ((book.definitions.toList.take place).map fun definition => 1 + definition.2.cost).sum

theorem sizeAt_succ {name : String} {tree : Tree} (size : Nat)
    (htree : book.definitions[place]? = some (name, tree)) :
    book.sizeAt size (place + 1) = book.sizeAt size place + 1 + tree.cost := by
  have hentry : book.definitions.toList[place]? = some (name, tree) := by
    rwa [Array.getElem?_toList]
  rw [sizeAt, sizeAt, List.take_add_one, hentry, List.map_append, List.sum_append]
  simp only [Option.toList_some, List.map_cons, List.map_nil, List.sum_cons, List.sum_nil]
  omega

/-- Every definition takes a cell. -/
theorem le_sizeAt (size : Nat) (hplace : place ≤ book.size) : place ≤ book.sizeAt size place := by
  induction place with
  | zero => exact Nat.zero_le _
  | succ place ih =>
    obtain ⟨⟨name, tree⟩, htree⟩ : ∃ definition, book.definitions[place]? = some definition :=
      ⟨_, Array.getElem?_eq_getElem hplace⟩
    have hbefore := ih (Nat.le_of_succ_le hplace)
    rw [sizeAt_succ size htree]
    omega

/-- The first definitions of a book are in the heap behind `size` other cells, one after the other,
and `roots` are the words of their hosts. -/
structure Filled (book : Book) (size : Nat) (roots : List Word) (heap : Heap) : Prop where
  valid : heap.Valid
  length_le : roots.length ≤ book.size
  size_eq : heap.size = book.sizeAt size roots.length
  occupies : ∀ place name (tree : Tree) root, book.definitions[place]? = some (name, tree) →
    roots[place]? = some root →
      tree.Occupies heap (book.sizeAt size place) (book.sizeAt size (place + 1)) root

namespace Filled

variable {size : Nat} {roots : List Word}

theorem nil (book : Book) (hvalid : heap.Valid) : book.Filled heap.size [] heap where
  valid := hvalid
  length_le := Nat.zero_le _
  size_eq := by simp [sizeAt]
  occupies := by simp

/-- The next definition, where it is written, gets the segment behind those of the others. -/
theorem inject (hfilled : book.Filled size roots heap) (hlt : roots.length < book.size)
    (h : book.inject (UInt32.ofNat roots.length) heap = .ok root left) :
    book.Filled size (roots ++ [root]) left := by
  obtain ⟨⟨name, tree⟩, htree⟩ : ∃ definition, book.definitions[roots.length]? = some definition :=
    ⟨_, Array.getElem?_eq_getElem hlt⟩
  have hplace : roots.length < UInt32.size := by
    have hle : roots.length ≤ heap.size := hfilled.size_eq ▸ le_sizeAt size hfilled.length_le
    exact Nat.lt_of_le_of_lt hle (Nat.lt_of_lt_of_le (size_lt_of_inject h) hfilled.valid.2)
  have hkeeps : heap.Keeps (fun _ => True) left := by
    have hafter := book.keeps_inject (UInt32.ofNat roots.length) heap
    rwa [h] at hafter
  rw [inject_eq_injectFresh htree hplace] at h
  have hsize := Tree.size_of_injectFresh h
  have hoccupies := Tree.occupies_of_injectFresh hfilled.valid h
  rw [hfilled.size_eq, ← sizeAt_succ size htree] at hsize hoccupies
  refine ⟨Tree.valid_of_injectFresh hfilled.valid h, ?_, ?_, ?_⟩
  · rw [List.length_append]
    exact hlt
  · rw [hsize, List.length_append]
    rfl
  · intro place name' tree' root' htree' hroot
    rcases Nat.lt_or_ge place roots.length with hold | hnew
    · rw [List.getElem?_append_left hold] at hroot
      exact (hfilled.occupies place name' tree' root' htree' hroot).of_keeps hkeeps
    · rw [List.getElem?_append_right hnew, List.getElem?_singleton] at hroot
      obtain ⟨hzero, hsame⟩ := Option.ite_none_right_eq_some.mp hroot
      obtain rfl : place = roots.length := by omega
      obtain rfl : root = root' := Option.some.inj hsame
      cases htree.symm.trans htree'
      exact hoccupies

/-- Writing the definitions after those that are there fills their segments in turn.  If one of them
cannot be written, those before it were. -/
theorem injectEach (hfilled : book.Filled size roots heap) (count : Nat)
    (hcount : roots.length + count ≤ book.size) :
    (∀ others left,
      book.injectEach ((List.range' roots.length count).map UInt32.ofNat) heap = .ok others left →
        others.length = count ∧ book.Filled size (roots ++ others) left) ∧
    ∀ error left,
      book.injectEach ((List.range' roots.length count).map UInt32.ofNat) heap =
          .error error left →
        ∃ others between, others.length < count ∧
          book.injectEach ((List.range' roots.length others.length).map UInt32.ofNat) heap =
            .ok others between ∧
          book.Filled size (roots ++ others) between ∧
          book.inject (UInt32.ofNat (roots.length + others.length)) between =
            .error error left := by
  induction count generalizing roots heap with
  | zero =>
    refine ⟨?_, nofun⟩
    rintro others left ⟨⟩
    exact ⟨rfl, by rwa [List.append_nil]⟩
  | succ count ih =>
    rw [List.range'_succ, List.map_cons, injectEach_cons]
    cases hfirst : book.inject (UInt32.ofNat roots.length) heap with
    | error error left =>
      rw [bind_of_error hfirst]
      refine ⟨nofun, ?_⟩
      rintro error' left' ⟨⟩
      exact ⟨[], heap, Nat.zero_lt_succ _, rfl, by rwa [List.append_nil], hfirst⟩
    | ok root between =>
      have hnext := hfilled.inject (by omega) hfirst
      have hlength : (roots ++ [root]).length = roots.length + 1 := by simp
      obtain ⟨hok, herror⟩ := ih hnext (by omega)
      rw [hlength] at hok herror
      rw [bind_of_ok hfirst]
      constructor
      · intro others left h
        obtain ⟨rest, between', hrest, hpure⟩ := bind_eq_ok_iff.mp h
        cases hpure
        obtain ⟨hcount', hfilled'⟩ := hok rest left hrest
        exact ⟨by rw [List.length_cons, hcount'], by rwa [List.append_cons]⟩
      · intro error left h
        cases hrest : book.injectEach ((List.range' (roots.length + 1) count).map UInt32.ofNat)
            between with
        | ok rest left' =>
          rw [bind_of_ok hrest] at h
          cases h
        | error error' left' =>
          rw [bind_of_error hrest] at h
          cases h
          obtain ⟨others, between', hlt, hothers, hfilled', hfails⟩ := herror error left hrest
          refine ⟨root :: others, between', Nat.succ_lt_succ hlt, ?_, ?_, ?_⟩
          · rw [List.length_cons, List.range'_succ]
            exact injectEach_cons_of_ok hfirst hothers
          · rwa [List.append_cons]
          · rwa [List.length_cons, Nat.add_comm others.length, ← Nat.add_assoc]

end Filled

/-! ## All definitions -/

theorem take_allIds {count : Nat} (hcount : count ≤ book.size) :
    book.allIds.take count = (List.range' 0 count).map UInt32.ofNat := by
  rw [allIds, ← List.map_take, List.take_range, Nat.min_eq_left hcount, List.range_eq_range']

/-- Writing the definitions of a book fills a segment for each of them, behind the cells in use and
one after the other.  Where that fails, it fails at a definition whose predecessors were all
written, and their segments are still there. -/
theorem segments_of_injectAll (book : Book) (hvalid : heap.Valid) :
    (∀ roots left, book.injectAll heap = .ok roots left →
      roots.length = book.size ∧ book.Filled heap.size roots left) ∧
    ∀ error left, book.injectAll heap = .error error left →
      ∃ roots between, roots.length < book.size ∧
        book.injectEach (book.allIds.take roots.length) heap = .ok roots between ∧
        book.Filled heap.size roots between ∧
        book.inject (UInt32.ofNat roots.length) between = .error error left ∧
        ∀ place name (tree : Tree) root, book.definitions[place]? = some (name, tree) →
          roots[place]? = some root →
            tree.Occupies left (book.sizeAt heap.size place) (book.sizeAt heap.size (place + 1))
              root := by
  have hids : book.injectAll = book.injectEach ((List.range' 0 book.size).map UInt32.ofNat) := by
    rw [← take_allIds (Nat.le_refl _), List.take_of_length_le (by simp [allIds])]
    rfl
  obtain ⟨hok, herror⟩ := (Filled.nil book hvalid).injectEach book.size (Nat.zero_add _).le
  rw [hids]
  refine ⟨fun roots left h => hok roots left h, fun error left h => ?_⟩
  obtain ⟨roots, between, hlt, hroots, hfilled, hfails⟩ := herror error left h
  rw [List.length_nil, Nat.zero_add] at hfails
  have hkeeps : between.Keeps (fun _ => True) left := by
    have hafter := book.keeps_inject (UInt32.ofNat roots.length) between
    rwa [hfails] at hafter
  refine ⟨roots, between, hlt, ?_, hfilled, hfails, ?_⟩
  · rwa [take_allIds hlt.le]
  · intro place name tree root htree hroot
    exact (hfilled.occupies place name tree root htree hroot).of_keeps hkeeps

/-- Two definitions that use the same name. -/
def sameName : Book :=
  ⟨#[("f", .lam "x" (.var "x")), ("g", .lam "x" (.lam "y" (.var "x")))], ∅, .empty⟩

/-- The segment of the second definition is behind that of the first, and its variable belongs to
the binder in its own cell 5. -/
theorem segments_of_injectAll_sameName :
    Heap.Valid ⟨#[.era], 9⟩ ∧
      ∃ left, sameName.injectAll ⟨#[.era], 9⟩ = .ok [.pack .lam 0 2, .pack .lam 0 5] left ∧
        left.cells[8]? = some (.pack .var 0 5) ∧
        (Tree.lam "x" (.lam "y" (.var "x"))).Occupies left 4 9 (.pack .lam 0 5) := by
  have hvalid : Heap.Valid ⟨#[.era], 9⟩ := by decide
  have hfirst : sameName.inject 0 ⟨#[.era], 9⟩ =
      .ok (.pack .lam 0 2) ⟨#[.era, .pack .lam 0 2, .sub, .pack .var 0 2], 9⟩ := rfl
  have hsecond : sameName.inject 1 ⟨#[.era, .pack .lam 0 2, .sub, .pack .var 0 2], 9⟩ =
      .ok (.pack .lam 0 5) ⟨#[.era, .pack .lam 0 2, .sub, .pack .var 0 2,
        .pack .lam 0 5, .sub, .pack .lam 0 7, .sub, .pack .var 0 5], 9⟩ := rfl
  have hrun : sameName.injectAll ⟨#[.era], 9⟩ = .ok [.pack .lam 0 2, .pack .lam 0 5] _ :=
    injectEach_cons_of_ok hfirst (injectEach_cons_of_ok hsecond rfl)
  have hfilled := ((segments_of_injectAll sameName hvalid).1 _ _ hrun).2
  have hstart : sameName.sizeAt (Heap.size ⟨#[.era], 9⟩) 1 = 4 := by decide
  have hstop : sameName.sizeAt (Heap.size ⟨#[.era], 9⟩) 2 = 9 := by decide
  have hoccupies := hfilled.occupies 1 _ _ (.pack .lam 0 5) rfl rfl
  rw [hstart, hstop] at hoccupies
  exact ⟨hvalid, _, hrun, rfl, hoccupies⟩

end Book

end InteractionGraph
