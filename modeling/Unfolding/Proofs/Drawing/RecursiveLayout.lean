import Unfolding.Proofs.Words.Placement

/-!
Centred drawings by recursion.

A branch is a call with all that is below it.  It is laid out from where its range
begins: a leaf takes one unit, and the calls of a call stand side by side, in the
order in which they were made.  The sweeps over the slots find this layout,
whatever the order in which the calls of different callers were added.
-/

namespace Unfolding

/-- A call with the branches of the calls that it makes. -/
inductive Branch where
  | node (slot : Nat) (calls : List Branch)

/-- A call with the width of its range and its coordinate, above the layouts of the
calls that it makes. -/
inductive Layout where
  | node (slot width : Nat) (coordinate : ℚ) (calls : List Layout)

namespace Layout

def slot : Layout → Nat
  | .node slot _ _ _ => slot

def width : Layout → Nat
  | .node _ width _ _ => width

def coordinate : Layout → ℚ
  | .node _ _ coordinate _ => coordinate

def calls : Layout → List Layout
  | .node _ _ _ calls => calls

mutual

/-- The layout and those of all calls below it. -/
def parts : Layout → List Layout
  | .node slot width coordinate calls => .node slot width coordinate calls :: rowParts calls

def rowParts : List Layout → List Layout
  | [] => []
  | layout :: layouts => layout.parts ++ rowParts layouts

end

/-- The layout of the call in a slot. -/
def part? (layout : Layout) (slot : Nat) : Option Layout :=
  layout.parts.find? (·.slot = slot)

/-- A leaf takes one unit and stands in its middle.  A caller takes the units of its
calls and stands at their mean. -/
def above (slot start : Nat) (calls : List Layout) : Layout :=
  if calls.isEmpty then .node slot 1 (start + 1 / 2) []
  else .node slot (calls.map width).sum ((calls.map coordinate).sum / calls.length) calls

theorem rowParts_eq_flatMap (layouts : List Layout) : rowParts layouts = layouts.flatMap parts := by
  induction layouts with
  | nil => rfl
  | cons layout layouts inductionHypothesis =>
      rw [rowParts, inductionHypothesis, List.flatMap_cons]

theorem parts_node (slot width : Nat) (coordinate : ℚ) (calls : List Layout) :
    (node slot width coordinate calls).parts =
      node slot width coordinate calls :: calls.flatMap parts := by
  rw [parts, rowParts_eq_flatMap]

/-- A layout of all calls of a tree, in which a range is as wide as the number of its
leaves, and a caller stands between its first and its last call. -/
structure IsOf (layout : Layout) (tree : CallTree) : Prop where
  slots : (layout.parts.map slot).Perm (List.range tree.size)
  children : ∀ part ∈ layout.parts, part.calls.map slot = tree.children part.slot
  width : ∀ part ∈ layout.parts, part.width = part.parts.countP (·.calls.isEmpty)
  between : ∀ part ∈ layout.parts, ∀ calls : part.calls ≠ [],
    (part.calls.head calls).coordinate ≤ part.coordinate ∧
      part.coordinate ≤ (part.calls.getLast calls).coordinate

end Layout

namespace Branch

mutual

/-- Lay a branch out from where its range begins. -/
def layout (start : Nat) : Branch → Layout
  | .node slot calls => .above slot start (layoutRow start calls)

/-- Lay branches out side by side. -/
def layoutRow (start : Nat) : List Branch → List Layout
  | [] => []
  | branch :: branches =>
      let first := branch.layout start
      first :: layoutRow (start + first.width) branches

end

end Branch

namespace CallTree

variable {tree : CallTree}

namespace Linked

/-- The branch of the call in a slot. -/
def branch (linked : tree.Linked) (slot : Nat) : Branch :=
  .node slot ((tree.children slot).attach.map fun ⟨child, _⟩ => linked.branch child)
termination_by tree.size - slot
decreasing_by
  have later := linked.lt_of_mem_children ‹_›
  omega

/-- The layout of a tree; its root begins at the origin. -/
def layout? (linked : tree.Linked) : Option Layout :=
  if tree.size = 0 then none else some ((linked.branch 0).layout 0)

/-- The coordinate of the call in a slot by the layout, seen from the root. -/
def place? (linked : tree.Linked) (slot : Nat) : Option ℚ :=
  linked.layout?.bind fun layout =>
    (layout.part? slot).map fun part => part.coordinate - layout.coordinate

variable {slot : Nat}

theorem branch_eq (linked : tree.Linked) (slot : Nat) :
    linked.branch slot = .node slot ((tree.children slot).map linked.branch) := by
  rw [branch]
  simp

/-! ### Layouts of branches -/

/-- The branch of a call, laid out where its range begins. -/
def layoutAt (linked : tree.Linked) (slot : Nat) : Layout :=
  (linked.branch slot).layout (tree.rangeStart slot)

/-- The calls of a call are laid out where their ranges begin. -/
theorem layoutRow_children (linked : tree.Linked) {before after : List Nat}
    (split : tree.children slot = before ++ after)
    (widths : ∀ child ∈ after, (linked.layoutAt child).width = tree.leafCount child) :
    Branch.layoutRow (tree.rangeStart slot + (before.map tree.leafCount).sum)
      (after.map linked.branch) = after.map linked.layoutAt := by
  induction after generalizing before with
  | nil => rfl
  | cons child after inductionHypothesis =>
      rw [List.forall_mem_cons] at widths
      have start := linked.rangeStart_child split
      have next : tree.rangeStart child + (linked.layoutAt child).width =
          tree.rangeStart slot + ((before ++ [child]).map tree.leafCount).sum := by
        simp [start, widths.1, Nat.add_assoc]
      have rest : tree.children slot = (before ++ [child]) ++ after := by
        rw [split, List.append_assoc, List.singleton_append]
      rw [List.map_cons, Branch.layoutRow, ← start, List.map_cons,
        ← inductionHypothesis rest widths.2, ← next]
      rfl

/-- A layout is made of the widths and the coordinates that the sweeps find. -/
theorem layoutAt_eq (linked : tree.Linked) (inside : slot < tree.size) :
    linked.layoutAt slot = .node slot (tree.leafCount slot) (tree.rangeCentre slot)
      ((tree.children slot).map linked.layoutAt) := by
  apply linked.upward _ inside
  intro slot inside below
  have widths : ∀ child ∈ tree.children slot,
      (linked.layoutAt child).width = tree.leafCount child := by
    intro child member
    rw [below child member, Layout.width]
  have coordinates : ∀ child ∈ tree.children slot,
      (linked.layoutAt child).coordinate = tree.rangeCentre child := by
    intro child member
    rw [below child member, Layout.coordinate]
  have row : Branch.layoutRow (tree.rangeStart slot) ((tree.children slot).map linked.branch) =
      (tree.children slot).map linked.layoutAt :=
    linked.layoutRow_children (List.nil_append _).symm widths
  rw [layoutAt, branch_eq, Branch.layout, row, Layout.above, linked.leafCount_eq inside,
    linked.rangeCentre_eq inside]
  by_cases leaf : tree.children slot = []
  · simp [leaf]
  · have widthsEq := List.map_congr_left widths
    have coordinatesEq := List.map_congr_left coordinates
    simp [leaf, mean_eq, Function.comp_def, widthsEq, coordinatesEq]

theorem slot_layoutAt (linked : tree.Linked) (inside : slot < tree.size) :
    (linked.layoutAt slot).slot = slot := by
  rw [linked.layoutAt_eq inside, Layout.slot]

theorem coordinate_layoutAt (linked : tree.Linked) (inside : slot < tree.size) :
    (linked.layoutAt slot).coordinate = tree.rangeCentre slot := by
  rw [linked.layoutAt_eq inside, Layout.coordinate]

/-- All layouts below a call are those of calls of the tree. -/
theorem exists_of_mem_parts (linked : tree.Linked) (inside : slot < tree.size) {part : Layout}
    (member : part ∈ (linked.layoutAt slot).parts) :
    ∃ other, slot ≤ other ∧ other < tree.size ∧ part = linked.layoutAt other := by
  revert member
  apply linked.upward _ inside
  intro slot inside below member
  rw [linked.layoutAt_eq inside, Layout.parts_node, ← linked.layoutAt_eq inside, List.mem_cons,
    List.flatMap_map, List.mem_flatMap] at member
  rcases member with rfl | ⟨child, made, member⟩
  · exact ⟨slot, Nat.le_refl slot, inside, rfl⟩
  · obtain ⟨other, later, otherInside, rfl⟩ := below child made member
    have childLater := (linked.lt_of_mem_children made).1
    exact ⟨other, by omega, otherInside, rfl⟩

/-! ### Every call has one place -/

/-- The slots of a call and all calls below it. -/
def slotsBelow (linked : tree.Linked) (slot : Nat) : List Nat :=
  (linked.layoutAt slot).parts.map Layout.slot

theorem slotsBelow_eq (linked : tree.Linked) (inside : slot < tree.size) :
    linked.slotsBelow slot = slot :: (tree.children slot).flatMap linked.slotsBelow := by
  rw [slotsBelow, linked.layoutAt_eq inside, Layout.parts_node, List.map_cons, List.map_flatMap,
    List.flatMap_map]
  rfl

theorem within_of_mem_slotsBelow (linked : tree.Linked) (inside : slot < tree.size) {other : Nat}
    (member : other ∈ linked.slotsBelow slot) : slot ≤ other ∧ other < tree.size := by
  obtain ⟨part, partMember, rfl⟩ := List.mem_map.mp member
  obtain ⟨other, later, otherInside, rfl⟩ := linked.exists_of_mem_parts inside partMember
  rw [linked.slot_layoutAt otherInside]
  exact ⟨later, otherInside⟩

/-- A call is as often below another one as its caller is. -/
theorem count_slotsBelow (linked : tree.Linked) {child parent : Nat}
    (made : tree.parent? child = some parent) (inside : slot < tree.size) :
    (linked.slotsBelow slot).count child =
      (if slot = child then 1 else 0) + (linked.slotsBelow slot).count parent := by
  have sum (slots : List Nat) (count : Nat → Nat) :
      (slots.map fun slot => (if slot = child then 1 else 0) + count slot).sum =
        slots.count child + (slots.map count).sum := by
    induction slots with
    | nil => rfl
    | cons slot slots inductionHypothesis =>
        simp [List.count_cons, inductionHypothesis]
        omega
  -- a caller counts itself where it counts the child, so both counts grow together there
  apply linked.upward _ inside
  intro slot inside below
  have nodup : (tree.children slot).Nodup :=
    (linked.pairwise_children slot).imp fun earlier => Nat.ne_of_lt earlier
  have once : (tree.children slot).count child = if slot = parent then 1 else 0 := by
    simp only [nodup.count, linked.mem_children_iff, made, Option.some_inj, eq_comm]
  rw [linked.slotsBelow_eq inside, List.count_cons, List.count_cons, List.count_flatMap,
    List.count_flatMap, Function.comp_def, List.map_congr_left below, sum, once]
  simp only [beq_iff_eq, Function.comp_def]
  omega

theorem count_slotsBelow_root (linked : tree.Linked) (inside : slot < tree.size) :
    (linked.slotsBelow 0).count slot = 1 := by
  have nonempty : 0 < tree.size := Nat.zero_lt_of_lt inside
  induction slot using Nat.strong_induction_on with
  | _ slot inductionHypothesis =>
      by_cases root : slot = 0
      · subst root
        have absent : 0 ∉ (tree.children 0).flatMap linked.slotsBelow := by
          intro member
          obtain ⟨child, made, member⟩ := List.mem_flatMap.mp member
          obtain ⟨later, childInside⟩ := linked.lt_of_mem_children made
          have := (linked.within_of_mem_slotsBelow childInside member).1
          omega
        rw [linked.slotsBelow_eq nonempty, List.count_cons_self, List.count_eq_zero.mpr absent]
      · obtain ⟨parent, made⟩ := linked.exists_parent (Nat.pos_of_ne_zero root) inside
        have earlier := (linked.caller made).1
        rw [linked.count_slotsBelow made nonempty, if_neg (Ne.symm root),
          inductionHypothesis parent earlier (Nat.lt_trans earlier inside)]

theorem slotsBelow_root_perm (linked : tree.Linked) (nonempty : 0 < tree.size) :
    (linked.slotsBelow 0).Perm (List.range tree.size) := by
  rw [List.perm_iff_count]
  intro slot
  by_cases inside : slot < tree.size
  · rw [linked.count_slotsBelow_root inside, List.nodup_range.count,
      if_pos (List.mem_range.mpr inside)]
  · rw [List.nodup_range.count, if_neg (mt List.mem_range.mp inside), List.count_eq_zero]
    exact fun member => inside (linked.within_of_mem_slotsBelow nonempty member).2

/-- The layout of a tree tells the coordinates of its calls. -/
theorem part?_layoutAt (linked : tree.Linked) (nonempty : 0 < tree.size) (slot : Nat) :
    (linked.layoutAt 0).part? slot =
      if slot < tree.size then some (linked.layoutAt slot) else none := by
  have slots := linked.slotsBelow_root_perm nonempty
  by_cases inside : slot < tree.size
  · have member : slot ∈ linked.slotsBelow 0 := slots.mem_iff.mpr (List.mem_range.mpr inside)
    obtain ⟨part, partMember, here⟩ := List.mem_map.mp member
    obtain ⟨found, finds⟩ : ∃ found, (linked.layoutAt 0).part? slot = some found :=
      Option.isSome_iff_exists.mp (List.find?_isSome.mpr ⟨part, partMember, decide_eq_true here⟩)
    obtain ⟨other, -, otherInside, rfl⟩ :=
      linked.exists_of_mem_parts nonempty (List.mem_of_find?_eq_some finds)
    have same : (linked.layoutAt other).slot = slot := by simpa using List.find?_some finds
    rw [linked.slot_layoutAt otherInside] at same
    rw [finds, if_pos inside, same]
  · rw [if_neg inside, Layout.part?, List.find?_eq_none]
    intro part partMember here
    have member : slot ∈ linked.slotsBelow 0 :=
      List.mem_map.mpr ⟨part, partMember, of_decide_eq_true here⟩
    exact inside (linked.within_of_mem_slotsBelow nonempty member).2

/-! ### Widths and spans -/

/-- A range is as wide as the number of leaves in it. -/
theorem leafCount_eq_countP (linked : tree.Linked) (inside : slot < tree.size) :
    tree.leafCount slot = (linked.layoutAt slot).parts.countP (·.calls.isEmpty) := by
  apply linked.upward _ inside
  intro slot inside below
  rw [linked.layoutAt_eq inside, Layout.parts_node, List.countP_cons, List.countP_flatMap,
    List.map_map, linked.leafCount_eq inside, List.map_congr_left below]
  by_cases leaf : tree.children slot = []
  · simp [leaf, Layout.calls]
  · simp [leaf, Layout.calls, Function.comp_def]

theorem pairwise_rangeCentre (linked : tree.Linked) (slot : Nat) :
    ((tree.children slot).map tree.rangeCentre).Pairwise (· ≤ ·) := by
  rw [List.pairwise_map]
  apply (linked.pairwise_children slot).imp_of_mem
  intro child other member otherMember earlier
  have right := (linked.rangeCentre_within (linked.lt_of_mem_children member).2).2
  have left := (linked.rangeCentre_within (linked.lt_of_mem_children otherMember).2).1
  have apart : (tree.rangeStart child : ℚ) + tree.leafCount child ≤ tree.rangeStart other := by
    exact_mod_cast linked.range_siblings member otherMember earlier
  linarith

/-- A caller stands between its first and its last call. -/
theorem rangeCentre_between (linked : tree.Linked) (inside : slot < tree.size)
    (nonempty : tree.children slot ≠ []) :
    tree.rangeCentre ((tree.children slot).head nonempty) ≤ tree.rangeCentre slot ∧
      tree.rangeCentre slot ≤ tree.rangeCentre ((tree.children slot).getLast nonempty) := by
  have sorted := linked.pairwise_rangeCentre slot
  have coordinates : (tree.children slot).map tree.rangeCentre ≠ [] := by simpa using nonempty
  rw [linked.rangeCentre_eq inside, if_neg nonempty, ← List.head_map coordinates,
    ← List.getLast_map coordinates]
  exact mean_within coordinates fun _ member =>
    ⟨sorted.rel_head member, sorted.rel_getLast member⟩

theorem isOf_layoutAt (linked : tree.Linked) (nonempty : 0 < tree.size) :
    (linked.layoutAt 0).IsOf tree where
  slots := linked.slotsBelow_root_perm nonempty
  children := by
    intro part member
    obtain ⟨slot, -, inside, rfl⟩ := linked.exists_of_mem_parts nonempty member
    rw [linked.layoutAt_eq inside, Layout.calls, Layout.slot, List.map_map]
    nth_rewrite 2 [← List.map_id (tree.children slot)]
    apply List.map_congr_left
    intro child made
    exact linked.slot_layoutAt (linked.lt_of_mem_children made).2
  width := by
    intro part member
    obtain ⟨slot, -, inside, rfl⟩ := linked.exists_of_mem_parts nonempty member
    rw [← linked.leafCount_eq_countP inside, linked.layoutAt_eq inside, Layout.width]
  between := by
    intro part member
    obtain ⟨slot, -, inside, rfl⟩ := linked.exists_of_mem_parts nonempty member
    rw [linked.layoutAt_eq inside]
    intro calls
    have children : tree.children slot ≠ [] := by simpa [Layout.calls] using calls
    have first := (linked.lt_of_mem_children (List.head_mem children)).2
    have last := (linked.lt_of_mem_children (List.getLast_mem children)).2
    simp only [Layout.calls, List.head_map, List.getLast_map, linked.coordinate_layoutAt first,
      linked.coordinate_layoutAt last]
    exact linked.rangeCentre_between inside children

/-! ### Sweeps -/

theorem layout?_eq (linked : tree.Linked) :
    linked.layout? = if tree.size = 0 then none else some (linked.layoutAt 0) := by
  rw [layout?, layoutAt, linked.rangeStart_zero]

/-- The sweeps find the layout. -/
theorem getElem?_centredSlots (linked : tree.Linked) (slot : Nat) :
    (tree.centredSlots : Array ℚ)[slot]? = linked.place? slot := by
  have sized : (tree.centredSlots : Array ℚ).size = tree.size := tree.size_slots .centred
  rw [place?, linked.layout?_eq]
  by_cases inside : slot < tree.size
  · have nonempty : 0 < tree.size := Nat.zero_lt_of_lt inside
    have coordinate := getD_centredSlots inside
    rw [Array.getD_eq_getD_getElem?, Array.getElem?_eq_getElem (sized ▸ inside), Option.getD_some]
      at coordinate
    rw [if_neg (Nat.ne_of_gt nonempty), Option.bind_some, linked.part?_layoutAt nonempty,
      if_pos inside, Option.map_some, linked.coordinate_layoutAt inside,
      linked.coordinate_layoutAt nonempty, Array.getElem?_eq_getElem (sized ▸ inside), coordinate]
  · rw [Array.getElem?_eq_none (by omega)]
    split
    · rfl
    · rename_i nonempty
      rw [Option.bind_some, linked.part?_layoutAt (Nat.pos_of_ne_zero nonempty), if_neg inside,
        Option.map_none]

end Linked

/-- Whatever edits are tried on an empty tree, the sweeps over its slots find the
coordinates of the recursive layout, and the root is the origin. -/
theorem history_laid_out (family : Family) (changes : List Edit) :
    let tree := attemptAll { family } changes
    let cross : Array ℚ := tree.centredSlots
    ∃ linked : tree.Linked,
      (Words.ofTree tree).centredSlots = .ok cross ∧
      (∀ slot, cross[slot]? = linked.place? slot) ∧
      ∀ layout ∈ linked.layout?, layout.IsOf tree ∧ cross[0]? = some 0 := by
  have linked : (attemptAll { family } changes).Linked := (Linked.of_empty rfl).attemptAll changes
  have bounded : (attemptAll { family } changes).size ≤ capacity :=
    size_attemptAll_le (Nat.zero_le _) changes
  generalize attemptAll { family } changes = tree at linked bounded
  refine ⟨linked, Words.centredSlots_ofTree linked bounded, linked.getElem?_centredSlots, ?_⟩
  intro layout laid
  rw [linked.layout?_eq] at laid
  split at laid
  · cases laid
  · rename_i nonempty
    cases laid
    have root : 0 < tree.size := Nat.pos_of_ne_zero nonempty
    refine ⟨linked.isOf_layoutAt root, ?_⟩
    rw [linked.getElem?_centredSlots, Linked.place?, linked.layout?_eq, if_neg nonempty,
      Option.bind_some, linked.part?_layoutAt root, if_pos root, Option.map_some, sub_self]

end CallTree

end Unfolding
