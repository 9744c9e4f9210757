import InteractionGraph.Proofs.Grammar.Wildcard
import InteractionGraph.Proofs.Inject.References

/-!
# Passages

A part of a term has a place among the tokens of the term, and a place in the heap that the term is
written into.  A `Passage` is a term with both, and `Passage.Contains` goes from a term to its
parts, keeping count of the tokens in front of the part and of the cells that were handed out before
it.

The two places do not go along with each other.  Arms are written in any order but laid out in that
of their ids, and the applications that share a list are laid out from the last to the first.  So a
part is followed one node at a time, by the rules of the grammar.  `exists_contains` says that in
this way one gets to each reference of the term in the cell that it is written into.
-/

namespace InteractionGraph

/-! ## Steps of a part -/

namespace Tree

variable {α : Type} {items : List α} {step : Step} {address host base : Nat}

theorem cost_applyAll (function : Tree) (arguments : List Tree) :
    (function.applyAll arguments).cost =
      2 * arguments.length + function.cost + costOfFields arguments := by
  induction arguments generalizing function with
  | nil => simp [applyAll]
  | cons argument arguments ih =>
    rw [show function.applyAll (argument :: arguments) =
      (app function argument).applyAll arguments from rfl, ih]
    simp only [cost_app, List.length_cons, costOfFields_cons]
    omega

/-- A step of the fields is one of a field, whose cells come behind those of the fields before. -/
theorem exists_of_mem_stepsOfFields {field : α → Tree}
    (h : step ∈ stepsOfFields (items.map field) address base) :
    ∃ before item after, items = before ++ item :: after ∧
      step ∈ (field item).steps (address + before.length)
        (base + costOfFields (before.map field)) := by
  induction items generalizing address base with
  | nil => cases h
  | cons item items ih =>
    rw [List.map_cons, stepsOfFields] at h
    rcases List.mem_append.mp h with hmem | hmem
    · exact ⟨[], item, items, rfl, hmem⟩
    · obtain ⟨before, other, after, rfl, hother⟩ := ih hmem
      refine ⟨item :: before, other, after, rfl, ?_⟩
      rw [List.map_cons, costOfFields_cons, List.length_cons, ← Nat.add_assoc base,
        Nat.add_comm before.length, ← Nat.add_assoc]
      exact hother

/-- A step of the arms that stores no id is one of the body of an arm. -/
theorem exists_of_mem_stepsOfArms {arm : α → UInt32 × Tree}
    (h : step ∈ stepsOfArms (items.map arm) address base) (hstep : step.request? ≠ none) :
    ∃ before item after, items = before ++ item :: after ∧
      step ∈ (arm item).2.steps (address + 2 * before.length + 1)
        (base + costOfArms (before.map arm)) := by
  induction items generalizing address base with
  | nil => cases h
  | cons item items ih =>
    rw [List.map_cons, show arm item = ((arm item).1, (arm item).2) from rfl, stepsOfArms] at h
    rcases List.mem_cons.mp h with rfl | hmem
    · exact absurd rfl hstep
    · rcases List.mem_append.mp hmem with hmem | hmem
      · exact ⟨[], item, items, rfl, hmem⟩
      · obtain ⟨before, other, after, rfl, hother⟩ := ih hmem
        refine ⟨item :: before, other, after, rfl, ?_⟩
        rw [List.map_cons, show arm item = ((arm item).1, (arm item).2) from rfl, costOfArms_cons,
          List.length_cons, ← Nat.add_assoc base, Nat.mul_succ, Nat.add_comm (2 * _),
          ← Nat.add_assoc]
        exact hother

/-- A step of several applications in a row that stores nothing is one of the function or of an
argument.  The node of the last application comes first. -/
theorem exists_of_mem_steps_applyAll {function : Tree} {argument : α → Tree}
    (h : step ∈ (function.applyAll (items.map argument)).steps host base)
    (hstep : step.request? ≠ none) (hcells : ∀ cells, step ≠ .reserve cells) (hne : items ≠ []) :
    step ∈ function.steps (base + 2 * (items.length - 1)) (base + 2 * items.length) ∨
      ∃ before item after, items = before ++ item :: after ∧
        step ∈ (argument item).steps (base + 2 * after.length + 1)
          (base + 2 * items.length + function.cost + costOfFields (before.map argument)) := by
  induction items using List.reverseRecOn generalizing host base with
  | nil => exact absurd rfl hne
  | append_singleton items item ih =>
    rw [List.map_append, List.map_singleton, applyAll_concat, steps] at h
    simp only [List.mem_cons, List.mem_append, List.not_mem_nil, or_false] at h
    have hlength : (items ++ [item]).length = items.length + 1 := by simp
    rw [hlength, Nat.add_sub_cancel]
    rcases h with rfl | hfunction | hargument | rfl
    · exact absurd rfl (hcells _)
    · by_cases hempty : items = []
      · subst hempty
        exact .inl hfunction
      · have hpos := List.length_pos_iff.mpr hempty
        rcases ih hfunction hempty with hmem | ⟨before, other, after, hsplit, hmem⟩
        · refine .inl ?_
          rw [show base + 2 * items.length = base + 2 + 2 * (items.length - 1) by omega,
            show base + 2 * (items.length + 1) = base + 2 + 2 * items.length by omega]
          exact hmem
        · refine .inr ⟨before, other, after ++ [item], by simp [hsplit], ?_⟩
          rw [List.length_append, List.length_singleton,
            show base + 2 * (after.length + 1) + 1 = base + 2 + 2 * after.length + 1 by omega,
            show base + 2 * (items.length + 1) = base + 2 + 2 * items.length by omega]
          exact hmem
    · refine .inr ⟨items, item, [], rfl, ?_⟩
      rw [cost_applyAll, List.length_map] at hargument
      rw [List.length_nil, show base + 2 * (items.length + 1) + function.cost +
        costOfFields (items.map argument) = base + 2 + (2 * items.length + function.cost +
        costOfFields (items.map argument)) by omega]
      exact hargument
    · exact absurd rfl hstep

end Tree

namespace Grammar

/-! ## Passages and their parts -/

/-- A term, the tokens that it is written as, the cell `host` that it is written into and the
address `base` from which on its cells are handed out. -/
structure Passage where
  tree : Tree
  tokens : List Token
  host : Nat
  base : Nat

/-- The arms of a match in the order in which the match has them, each with its place among the arms
as they are written. -/
def placesInOrder (written : List WrittenArm) : List (WrittenArm × Nat) :=
  written.zipIdx.mergeSort fun first second => first.1.id ≤ second.1.id

variable {table : ConstructorTable}

/-- In the first passage, the last one is found behind the tokens `front`. -/
inductive Passage.Contains (table : ConstructorTable) : Passage → List Token → Passage → Prop where
  | self {passage : Passage} :
    Derives table passage.tree passage.tokens → Contains table passage [] passage
  | lam {name : String} {body : Tree} {tokens front : List Token} {host base : Nat}
    {part : Passage} :
    Contains table ⟨body, tokens, base + 1, base + 2⟩ front part →
      Contains table ⟨.lam name body, ['λ'] :: name.toList :: tokens, host, base⟩
        (['λ'] :: name.toList :: front) part
  | function {function : Tree} {arguments : List (Tree × List Token)} {tokens front : List Token}
    {host base : Nat} {part : Passage} :
    arguments ≠ [] →
      Contains table ⟨function, tokens, base + 2 * (arguments.length - 1),
        base + 2 * arguments.length⟩ front part →
      Contains table ⟨function.applyAll (arguments.map Prod.fst),
        ['('] :: (tokens ++ (arguments.flatMap Prod.snd ++ [[')']])), host, base⟩
        (['('] :: front) part
  | argument {function : Tree} {before after : List (Tree × List Token)}
    {argument : Tree × List Token} {tokens front : List Token} {host base : Nat}
    {part : Passage} :
    Derives table function tokens → (∀ other ∈ before, Derives table other.1 other.2) →
      Contains table ⟨argument.1, argument.2, base + 2 * after.length + 1,
        base + 2 * (before ++ argument :: after).length + function.cost +
          Tree.costOfFields (before.map Prod.fst)⟩ front part →
      Contains table ⟨function.applyAll ((before ++ argument :: after).map Prod.fst),
        ['('] :: (tokens ++ ((before ++ argument :: after).flatMap Prod.snd ++ [[')']])),
        host, base⟩
        (['('] :: (tokens ++ (before.flatMap Prod.snd ++ front))) part
  | left {label : UInt32} {digits : List Char} {left right : Tree}
    {first second front : List Token} {host base : Nat} {part : Passage} :
    Contains table ⟨left, first, base, base + 2⟩ front part →
      Contains table ⟨.sup label left right,
        ('&' :: digits) :: ['{'] :: (first ++ (second ++ [['}']])), host, base⟩
        (('&' :: digits) :: ['{'] :: front) part
  | right {label : UInt32} {digits : List Char} {left right : Tree}
    {first second front : List Token} {host base : Nat} {part : Passage} :
    Derives table left first →
      Contains table ⟨right, second, base + 1, base + 2 + left.cost⟩ front part →
      Contains table ⟨.sup label left right,
        ('&' :: digits) :: ['{'] :: (first ++ (second ++ [['}']])), host, base⟩
        (('&' :: digits) :: ['{'] :: (first ++ front)) part
  | value {label : UInt32} {digits : List Char} {dp0 dp1 : String} {value body : Tree}
    {first second front : List Token} {host base : Nat} {part : Passage} :
    Contains table ⟨value, first, base + 2, base + 3⟩ front part →
      Contains table ⟨.dup label dp0 dp1 value body,
        ['!'] :: ('&' :: digits) :: ['{'] :: dp0.toList :: dp1.toList :: ['}'] :: ['='] ::
          (first ++ second), host, base⟩
        (['!'] :: ('&' :: digits) :: ['{'] :: dp0.toList :: dp1.toList :: ['}'] :: ['='] :: front)
        part
  | body {label : UInt32} {digits : List Char} {dp0 dp1 : String} {value body : Tree}
    {first second front : List Token} {host base : Nat} {part : Passage} :
    Derives table value first →
      Contains table ⟨body, second, host, base + 3 + value.cost⟩ front part →
      Contains table ⟨.dup label dp0 dp1 value body,
        ['!'] :: ('&' :: digits) :: ['{'] :: dp0.toList :: dp1.toList :: ['}'] :: ['='] ::
          (first ++ second), host, base⟩
        (['!'] :: ('&' :: digits) :: ['{'] :: dp0.toList :: dp1.toList :: ['}'] :: ['='] ::
          (first ++ front)) part
  | field {id : UInt32} {letters : List Char} {before after : List (Tree × List Token)}
    {field : Tree × List Token} {front : List Token} {host base : Nat} {part : Passage} :
    (∀ other ∈ before, Derives table other.1 other.2) →
      Contains table ⟨field.1, field.2, base + before.length,
        base + (before ++ field :: after).length + Tree.costOfFields (before.map Prod.fst)⟩
        front part →
      Contains table ⟨.ctr id ((before ++ field :: after).map Prod.fst),
        ('#' :: letters) :: ['{'] :: ((before ++ field :: after).flatMap Prod.snd ++ [['}']]),
        host, base⟩
        (('#' :: letters) :: ['{'] :: (before.flatMap Prod.snd ++ front)) part
  | scrutinee {scrutinee : Tree} {arms : List WrittenArm} {tokens front : List Token}
    {host base : Nat} {part : Passage} :
    Contains table ⟨scrutinee, tokens, base, base + (1 + 2 * arms.length)⟩ front part →
      Contains table ⟨.matching scrutinee (arms.map WrittenArm.arm),
        ['~'] :: (tokens ++ ['{'] :: (arms.flatMap WrittenArm.tokens ++ [['}']])), host, base⟩
        (['~'] :: front) part
  | arm {scrutinee : Tree} {arms : List WrittenArm} {before after : List (WrittenArm × Nat)}
    {arm : WrittenArm} {place : Nat} {tokens front : List Token} {host base : Nat}
    {part : Passage} :
    Derives table scrutinee tokens →
      (∀ other ∈ arms, Derives table other.body other.bodyTokens) →
      placesInOrder arms = before ++ (arm, place) :: after →
      Contains table ⟨arm.body, arm.bodyTokens, base + 1 + 2 * before.length + 1,
        base + (1 + 2 * arms.length) + scrutinee.cost +
          Tree.costOfArms (before.map fun other => other.1.arm)⟩ front part →
      Contains table ⟨.matching scrutinee (arms.map WrittenArm.arm),
        ['~'] :: (tokens ++ ['{'] :: (arms.flatMap WrittenArm.tokens ++ [['}']])), host, base⟩
        (['~'] :: (tokens ++ ['{'] :: ((arms.take place).flatMap WrittenArm.tokens ++
          ('#' :: arm.letters) :: [':'] :: front))) part
  | op2Left {operator : Operator} {left right : Tree} {first second front : List Token}
    {host base : Nat} {part : Passage} :
    Contains table ⟨left, first, base, base + 2⟩ front part →
      Contains table ⟨.op2 operator left right,
        ['('] :: operator.symbol.toList :: (first ++ (second ++ [[')']])), host, base⟩
        (['('] :: operator.symbol.toList :: front) part
  | op2Right {operator : Operator} {left right : Tree} {first second front : List Token}
    {host base : Nat} {part : Passage} :
    Derives table left first →
      Contains table ⟨right, second, base + 1, base + 2 + left.cost⟩ front part →
      Contains table ⟨.op2 operator left right,
        ['('] :: operator.symbol.toList :: (first ++ (second ++ [[')']])), host, base⟩
        (['('] :: operator.symbol.toList :: (first ++ front)) part

theorem map_placesInOrder (written : List WrittenArm) :
    (placesInOrder written).map Prod.fst = inOrder written := by
  have hsorted := List.map_mergeSort (l := written.zipIdx) (f := Prod.fst)
    (r := fun first second => decide (first.1.id ≤ second.1.id))
    (s := fun first second => decide (first.id ≤ second.id)) fun _ _ _ _ => rfl
  rwa [List.zipIdx_map_fst] at hsorted

theorem getElem?_of_placesInOrder {written : List WrittenArm} {arm : WrittenArm} {place : Nat}
    {before after : List (WrittenArm × Nat)}
    (h : placesInOrder written = before ++ (arm, place) :: after) :
    written[place]? = some arm := by
  have hmem : (arm, place) ∈ placesInOrder written := by simp [h]
  exact List.mem_zipIdx_iff_getElem?.mp ((List.mergeSort_perm _ _).mem_iff.mp hmem)

/-- The tokens of an arm come behind those of the arms that are written before it. -/
theorem flatMap_tokens_eq {written : List WrittenArm} {arm : WrittenArm} {place : Nat}
    (h : written[place]? = some arm) :
    written.flatMap WrittenArm.tokens = (written.take place).flatMap WrittenArm.tokens ++
      (arm.tokens ++ (written.drop (place + 1)).flatMap WrittenArm.tokens) := by
  obtain ⟨hlt, rfl⟩ := List.getElem?_eq_some_iff.mp h
  rw [← List.flatMap_cons, ← List.drop_eq_getElem_cons hlt, ← List.flatMap_append,
    List.take_append_drop]

/-- What is contained is written behind the tokens in front of it. -/
theorem Passage.Contains.exists_tokens_eq {whole part : Passage} {front : List Token}
    (h : whole.Contains table front part) :
    ∃ back, whole.tokens = front ++ part.tokens ++ back := by
  induction h with
  | self _ => exact ⟨[], by simp⟩
  | lam _ ih | left _ ih | right _ _ ih | value _ ih | body _ _ ih | op2Left _ ih | op2Right _ _ ih
  | function _ _ ih | scrutinee _ ih | argument _ _ _ ih | field _ _ ih =>
    obtain ⟨back, hback⟩ := ih
    simp only at hback
    simp [hback]
  | arm _ _ hsplit _ ih =>
    obtain ⟨back, hback⟩ := ih
    simp only at hback
    rw [flatMap_tokens_eq (getElem?_of_placesInOrder hsplit)]
    simp [WrittenArm.tokens, hback]

variable {tree : Tree} {tokens : List Token} {name : String} {address host base : Nat}

/-- Each reference of a term is written among its tokens, and lies in the cell that it is written
into. -/
theorem Derives.exists_contains (h : Derives table tree tokens)
    (hmem : .unlinked name address ∈ tree.steps host base) :
    ∃ front inner, Passage.Contains table ⟨tree, tokens, host, base⟩ front
      ⟨.ref name none, ['@' :: name.toList], address, inner⟩ := by
  induction h generalizing host base with
  | era | var _ _ | u32 _ => simp [Tree.steps] at hmem
  | ref hname =>
    simp only [Tree.steps, List.mem_singleton, Step.unlinked.injEq] at hmem
    obtain ⟨rfl, rfl⟩ := hmem
    exact ⟨[], base, .self (.ref hname)⟩
  | @lam _ body _ _ _ ih =>
    have hbody : .unlinked name address ∈ body.steps (base + 1) (base + 2) := by
      simpa [Tree.steps] using hmem
    obtain ⟨front, inner, hcontains⟩ := ih hbody
    exact ⟨_, inner, .lam hcontains⟩
  | @app function tokens arguments hfunction harguments hne _ ihfunction iharguments =>
    rcases Tree.exists_of_mem_steps_applyAll hmem nofun nofun hne with
      hmem' | ⟨before, argument, after, rfl, hmem'⟩
    · obtain ⟨front, inner, hcontains⟩ := ihfunction hmem'
      exact ⟨_, inner, .function hne hcontains⟩
    · obtain ⟨front, inner, hcontains⟩ := iharguments argument (by simp) hmem'
      have hbefore : ∀ other ∈ before, Derives table other.1 other.2 := fun other hother =>
        harguments other (List.mem_append_left _ hother)
      exact ⟨_, inner, .argument hfunction hbefore hcontains⟩
  | @sup _ _ left right _ _ _ hleft _ ihleft ihright =>
    have hparts : .unlinked name address ∈ left.steps base (base + 2) ∨
        .unlinked name address ∈ right.steps (base + 1) (base + 2 + left.cost) := by
      simpa [Tree.steps] using hmem
    rcases hparts with hmem' | hmem'
    · obtain ⟨front, inner, hcontains⟩ := ihleft hmem'
      exact ⟨_, inner, .left hcontains⟩
    · obtain ⟨front, inner, hcontains⟩ := ihright hmem'
      exact ⟨_, inner, .right hleft hcontains⟩
  | @dup _ _ _ _ value body _ _ _ _ _ hvalue _ ihvalue ihbody =>
    have hparts : .unlinked name address ∈ value.steps (base + 2) (base + 3) ∨
        .unlinked name address ∈ body.steps host (base + 3 + value.cost) := by
      simpa [Tree.steps] using hmem
    rcases hparts with hmem' | hmem'
    · obtain ⟨front, inner, hcontains⟩ := ihvalue hmem'
      exact ⟨_, inner, .value hcontains⟩
    · obtain ⟨front, inner, hcontains⟩ := ihbody hmem'
      exact ⟨_, inner, .body hvalue hcontains⟩
  | @ctr _ _ fields _ hfields ih =>
    have hparts : .unlinked name address ∈
        Tree.stepsOfFields (fields.map Prod.fst) base (base + fields.length) := by
      by_cases hempty : fields = []
      · subst hempty
        simp [Tree.steps, Tree.stepsOfFields] at hmem
      · simpa [Tree.steps, hempty] using hmem
    obtain ⟨before, field, after, rfl, hmem'⟩ := Tree.exists_of_mem_stepsOfFields hparts
    obtain ⟨front, inner, hcontains⟩ := ih field (by simp) hmem'
    have hbefore : ∀ other ∈ before, Derives table other.1 other.2 := fun other hother =>
      hfields other (List.mem_append_left _ hother)
    exact ⟨_, inner, .field hbefore hcontains⟩
  | @mat scrutinee tokens arms hscrutinee _ hbodies ihscrutinee ihbodies =>
    have hsorted : Tree.sortArms (arms.map WrittenArm.arm) =
        (placesInOrder arms).map fun other => other.1.arm := by
      rw [← map_inOrder, ← map_placesInOrder, List.map_map]
      rfl
    have hlength : (placesInOrder arms).length = arms.length := by
      rw [← List.length_map (f := Prod.fst), map_placesInOrder, inOrder, List.length_mergeSort]
    have hparts : .unlinked name address ∈ scrutinee.steps base (base + (1 + 2 * arms.length)) ∨
        .unlinked name address ∈ Tree.stepsOfArms
          ((placesInOrder arms).map fun other => other.1.arm) (base + 1)
          (base + (1 + 2 * arms.length) + scrutinee.cost) := by
      rw [Tree.matching, hsorted] at hmem
      simpa [Tree.steps, hlength] using hmem
    rcases hparts with hmem' | hmem'
    · obtain ⟨front, inner, hcontains⟩ := ihscrutinee hmem'
      exact ⟨_, inner, .scrutinee hcontains⟩
    · obtain ⟨before, ⟨arm, place⟩, after, hsplit, hmem'⟩ :=
        Tree.exists_of_mem_stepsOfArms hmem' nofun
      have harm := List.mem_of_getElem? (getElem?_of_placesInOrder hsplit)
      obtain ⟨front, inner, hcontains⟩ := ihbodies arm harm hmem'
      exact ⟨_, inner, .arm hscrutinee hbodies hsplit hcontains⟩
  | @op2 _ left right _ _ hleft _ ihleft ihright =>
    have hparts : .unlinked name address ∈ left.steps base (base + 2) ∨
        .unlinked name address ∈ right.steps (base + 1) (base + 2 + left.cost) := by
      simpa [Tree.steps] using hmem
    rcases hparts with hmem' | hmem'
    · obtain ⟨front, inner, hcontains⟩ := ihleft hmem'
      exact ⟨_, inner, .op2Left hcontains⟩
    · obtain ⟨front, inner, hcontains⟩ := ihright hmem'
      exact ⟨_, inner, .op2Right hleft hcontains⟩

end Grammar

end InteractionGraph
