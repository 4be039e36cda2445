import Unfolding.Proofs.Drawing.Ranges
import Unfolding.Proofs.Expansion.Order
import Mathlib.Algebra.Order.BigOperators.Group.List
import Mathlib.Algebra.Order.Field.Rat
import Mathlib.Tactic.Linarith

/-!
Calls of a level are drawn apart, and the edges to them do not cross.

Both placements are read in exact arithmetic.  On a grid, neighbours of a level
are a unit apart.  In a centred drawing every call stands within its range, at
least half a unit from its ends, and the ranges of a level follow each other.
Callers are in the order of their calls in both.
-/

namespace Unfolding

/-- Exact coordinates. -/
instance : Coordinate ℚ where
  ofNat n := n

namespace CallTree

variable {tree : CallTree}

/-! ### Centred drawings -/

theorem mean_eq (coordinates : List ℚ) :
    mean coordinates = coordinates.sum / coordinates.length := by
  have sum : coordinates.foldr (fun coordinate sum => sum + coordinate) 0 = coordinates.sum := by
    induction coordinates with
    | nil => rfl
    | cons coordinate coordinates inductionHypothesis =>
        rw [List.foldr_cons, inductionHypothesis, List.sum_cons, add_comm]
  rw [← sum]
  rfl

theorem mean_within {coordinates : List ℚ} {low high : ℚ} (nonempty : coordinates ≠ [])
    (within : ∀ coordinate ∈ coordinates, low ≤ coordinate ∧ coordinate ≤ high) :
    low ≤ mean coordinates ∧ mean coordinates ≤ high := by
  have length : (0 : ℚ) < coordinates.length := by
    exact_mod_cast List.length_pos_of_ne_nil nonempty
  rw [mean_eq, le_div_iff₀ length, div_le_iff₀ length, mul_comm low, mul_comm high,
    ← nsmul_eq_mul, ← nsmul_eq_mul]
  constructor
  · exact List.card_nsmul_le_sum coordinates low fun coordinate member => (within _ member).1
  · exact List.sum_le_card_nsmul coordinates high fun coordinate member => (within _ member).2

/-- Where a call stands before the root is made the origin. -/
def rangeCentre (tree : CallTree) (slot : Nat) : ℚ := (tree.rangeCentres : Array ℚ).getD slot 0

namespace Linked

variable {slot other level : Nat}

theorem rangeCentre_eq (linked : tree.Linked) (inside : slot < tree.size) :
    tree.rangeCentre slot = if tree.children slot = [] then (tree.rangeStart slot : ℚ) + 1 / 2
      else mean ((tree.children slot).map tree.rangeCentre) := by
  have centred : tree.rangeCentre slot =
      if ((tree.children slot).map tree.rangeCentre).isEmpty then
        (tree.rangeStart slot : ℚ) + (1 : Nat) / (2 : Nat)
      else mean ((tree.children slot).map tree.rangeCentre) := linked.getD_sweepUp inside
  rw [centred, List.isEmpty_map]
  simp only [List.isEmpty_iff, Nat.cast_one, Nat.cast_ofNat]

/-- A call stands within its range, and not closer to an end than a leaf there. -/
theorem rangeCentre_within (linked : tree.Linked) (inside : slot < tree.size) :
    (tree.rangeStart slot : ℚ) + 1 / 2 ≤ tree.rangeCentre slot ∧
      tree.rangeCentre slot ≤ tree.rangeStart slot + tree.leafCount slot - 1 / 2 := by
  apply linked.upward _ inside
  intro slot inside below
  rw [linked.rangeCentre_eq inside]
  by_cases leaf : tree.children slot = []
  · rw [if_pos leaf, linked.leafCount_eq_one inside leaf]
    constructor
    · exact le_refl _
    · rw [Nat.cast_one]
      linarith
  · rw [if_neg leaf]
    apply mean_within
    · simpa using leaf
    · intro coordinate member
      obtain ⟨child, childMember, rfl⟩ := List.mem_map.mp member
      obtain ⟨left, right⟩ := below child childMember
      obtain ⟨start, finish⟩ := linked.range_within childMember
      have start : (tree.rangeStart slot : ℚ) ≤ tree.rangeStart child := by exact_mod_cast start
      have finish : (tree.rangeStart child : ℚ) + tree.leafCount child ≤
          tree.rangeStart slot + tree.leafCount slot := by exact_mod_cast finish
      constructor <;> linarith

/-- Two calls of a level have callers on the level above, in the same order. -/
theorem exists_callers (linked : tree.Linked) (breadthFirst : tree.BreadthFirst)
    (earlier : slot < other) (here : tree.level? slot = some level)
    (there : tree.level? other = some level) :
    ∃ above otherAbove higher, tree.parent? slot = some above ∧
      tree.parent? other = some otherAbove ∧ tree.level? above = some higher ∧
      tree.level? otherAbove = some higher ∧ level = higher + 1 ∧ above ≤ otherAbove := by
  cases level with
  | zero =>
      obtain ⟨call, found, top⟩ := Option.map_eq_some_iff.mp there
      obtain ⟨parent, caller, -, -, -, below⟩ :=
        linked.exists_caller (Nat.zero_lt_of_lt earlier) found
      omega
  | succ higher =>
      obtain ⟨above, parent, aboveHere⟩ := linked.exists_parent_above here
      obtain ⟨otherAbove, otherParent, aboveThere⟩ := linked.exists_parent_above there
      exact ⟨above, otherAbove, higher, parent, otherParent, aboveHere, aboveThere, rfl,
        breadthFirst parent otherParent earlier⟩

/-- The ranges of a level follow each other. -/
theorem ranges_apart (linked : tree.Linked) (breadthFirst : tree.BreadthFirst)
    (earlier : slot < other) (here : tree.level? slot = some level)
    (there : tree.level? other = some level) :
    tree.rangeStart slot + tree.leafCount slot ≤ tree.rangeStart other := by
  induction level generalizing slot other with
  | zero =>
      obtain ⟨_, _, higher, -, -, -, -, below, -⟩ :=
        linked.exists_callers breadthFirst earlier here there
      omega
  | succ level inductionHypothesis =>
      obtain ⟨above, otherAbove, higher, parent, otherParent, aboveHere, aboveThere, next, order⟩ :=
        linked.exists_callers breadthFirst earlier here there
      obtain rfl := Nat.succ.inj next
      rw [← mem_callees_iff, ← linked.children] at parent otherParent
      -- siblings share the range of their caller; otherwise the ranges of the callers lie apart
      rcases Nat.eq_or_lt_of_le order with rfl | order
      · exact linked.range_siblings parent otherParent earlier
      · have apart := inductionHypothesis order aboveHere aboveThere
        have finish := (linked.range_within parent).2
        have start := (linked.range_within otherParent).1
        omega

theorem rangeCentre_apart (linked : tree.Linked) (breadthFirst : tree.BreadthFirst)
    (earlier : slot < other) (here : tree.level? slot = some level)
    (there : tree.level? other = some level) :
    1 ≤ tree.rangeCentre other - tree.rangeCentre slot := by
  have right := (linked.rangeCentre_within (lt_size_of_level? here)).2
  have left := (linked.rangeCentre_within (lt_size_of_level? there)).1
  have apart : (tree.rangeStart slot : ℚ) + tree.leafCount slot ≤ tree.rangeStart other := by
    exact_mod_cast linked.ranges_apart breadthFirst earlier here there
  linarith

end Linked

theorem getD_centredSlots {slot : Nat} (inside : slot < tree.size) :
    (tree.centredSlots : Array ℚ).getD slot 0 = tree.rangeCentre slot - tree.rangeCentre 0 := by
  have sized : slot < (tree.rangeCentres : Array ℚ).size := by
    rw [rangeCentres, size_sweepUp]
    exact inside
  have centre : (tree.rangeCentres : Array ℚ)[slot]? = some (tree.rangeCentre slot) := by
    rw [rangeCentre, Array.getD_eq_getD_getElem?, Array.getElem?_eq_getElem sized, Option.getD_some]
  rw [centredSlots, Array.getD_eq_getD_getElem?, Array.getElem?_map, centre]
  rfl

/-! ### Grids -/

/-- The number of calls on a level in front of a slot. -/
def earlierOn (tree : CallTree) (slot level : Nat) : Nat :=
  (tree.calls.toList.take slot).countP (·.level = level)

theorem earlierOn_lt {slot other level : Nat} (earlier : slot < other)
    (here : tree.level? slot = some level) :
    tree.earlierOn slot level < tree.earlierOn other level := by
  obtain ⟨call, found, rfl⟩ := Option.map_eq_some_iff.mp here
  rw [← Array.getElem?_toList] at found
  have next : (tree.calls.toList.take (slot + 1)).countP (·.level = call.level) =
      tree.earlierOn slot call.level + 1 := by
    rw [List.take_add_one, found, List.countP_append]
    simp [earlierOn]
  have more : (tree.calls.toList.take (slot + 1)).countP (·.level = call.level) ≤
      tree.earlierOn other call.level :=
    (List.take_sublist_take_left earlier).countP_le
  omega

def indexStep (state : Array Nat × Array Nat) (call : Call) : Array Nat × Array Nat :=
  (state.1.modify call.level (· + 1), state.2.push (state.1.getD call.level 0))

/-- The index of a call is the number of calls in front of it on its level,
counted on from those that were seen at the start. -/
theorem toList_foldl_indexStep {calls : List Call} {seen indices : Array Nat}
    (shallow : ∀ call ∈ calls, call.level < seen.size) :
    (calls.foldl indexStep (seen, indices)).2.toList =
      indices.toList ++ calls.mapIdx fun i call =>
        seen.getD call.level 0 + (calls.take i).countP (·.level = call.level) := by
  induction calls generalizing seen indices with
  | nil => simp
  | cons first calls inductionHypothesis =>
      rw [List.forall_mem_cons] at shallow
      have seenNext (level : Nat) : (seen.modify first.level (· + 1)).getD level 0 =
          seen.getD level 0 + if first.level = level then 1 else 0 := by
        rw [Array.getD_eq_getD_getElem?, Array.getElem?_modify, Array.getD_eq_getD_getElem?]
        by_cases here : first.level = level
        · subst here
          simp [shallow.1]
        · simp [here]
      have shifted : (fun (i : Nat) (call : Call) =>
          (seen.modify first.level (· + 1)).getD call.level 0 +
            (calls.take i).countP (·.level = call.level)) =
          fun i call => seen.getD call.level 0 +
            ((first :: calls).take (i + 1)).countP (·.level = call.level) := by
        funext i call
        rw [seenNext, List.take_succ_cons, List.countP_cons]
        simp only [decide_eq_true_eq]
        omega
      rw [List.foldl_cons, indexStep, inductionHypothesis (by simpa using shallow.2), shifted,
        List.mapIdx_cons, Array.toList_push, List.append_assoc, List.singleton_append]
      rfl

theorem toList_levelIndices (tree : CallTree) :
    tree.levelIndices.toList =
      tree.calls.toList.mapIdx fun slot call => tree.earlierOn slot call.level := by
  have shallow : ∀ call ∈ tree.calls.toList,
      call.level < (Array.replicate tree.levelCount 0).size := by
    intro call member
    rw [Array.size_replicate]
    exact level_lt_levelCount member
  have unseen (level : Nat) : (Array.replicate tree.levelCount 0).getD level 0 = 0 := by
    rw [Array.getD_eq_getD_getElem?, Array.getElem?_replicate]
    split <;> rfl
  have folded : tree.levelIndices =
      (tree.calls.toList.foldl indexStep (Array.replicate tree.levelCount 0, #[])).2 := by
    rw [levelIndices, ← Array.foldl_toList]
    rfl
  rw [folded, toList_foldl_indexStep shallow]
  simp only [unseen, Nat.zero_add]
  rfl

theorem getD_gridSlots {slot level : Nat} (here : tree.level? slot = some level) :
    (tree.gridSlots : Array ℚ).getD slot 0 =
      tree.earlierOn slot level - (((tree.levels.getD level {}).calls : ℚ) - 1) / 2 := by
  obtain ⟨call, found, rfl⟩ := Option.map_eq_some_iff.mp here
  have index : tree.levelIndices[slot]? = some (tree.earlierOn slot call.level) := by
    rw [← Array.getElem?_toList, toList_levelIndices, List.getElem?_mapIdx, Array.getElem?_toList,
      found, Option.map_some]
  rw [gridSlots, Array.getD_eq_getD_getElem?, Array.getElem?_zipWith, found, index]
  change (_ : ℚ) - (_ - ((1 : Nat) : ℚ)) / ((2 : Nat) : ℚ) = _
  rw [Nat.cast_one, Nat.cast_ofNat]
  rfl

theorem gridSlots_apart {slot other level : Nat} (earlier : slot < other)
    (here : tree.level? slot = some level) (there : tree.level? other = some level) :
    1 ≤ (tree.gridSlots : Array ℚ).getD other 0 - (tree.gridSlots : Array ℚ).getD slot 0 := by
  have apart : (tree.earlierOn slot level : ℚ) + 1 ≤ tree.earlierOn other level := by
    exact_mod_cast earlierOn_lt earlier here
  rw [getD_gridSlots here, getD_gridSlots there]
  linarith

/-! ### Both placements -/

/-- Calls of a level stand in the order of their slots, at least a unit apart,
and their callers stand in this order too. -/
structure IsPlanar (tree : CallTree) (cross : Array ℚ) : Prop where
  size : cross.size = tree.size
  apart : ∀ {slot other level : Nat}, slot < other → tree.level? slot = some level →
    tree.level? other = some level → 1 ≤ cross.getD other 0 - cross.getD slot 0
  uncrossed : ∀ {slot other level : Nat}, slot < other → tree.level? slot = some level →
    tree.level? other = some level →
    ∃ above otherAbove, tree.parent? slot = some above ∧ tree.parent? other = some otherAbove ∧
      cross.getD above 0 ≤ cross.getD otherAbove 0

namespace Linked

variable {slot other level : Nat}

theorem slots_apart (linked : tree.Linked) (breadthFirst : tree.BreadthFirst)
    (placement : Placement) (earlier : slot < other) (here : tree.level? slot = some level)
    (there : tree.level? other = some level) :
    1 ≤ (placement.slots tree : Array ℚ).getD other 0 -
      (placement.slots tree : Array ℚ).getD slot 0 := by
  cases placement with
  | grid => exact gridSlots_apart earlier here there
  | centred =>
      have apart := linked.rangeCentre_apart breadthFirst earlier here there
      rw [Placement.slots, getD_centredSlots (lt_size_of_level? here),
        getD_centredSlots (lt_size_of_level? there)]
      linarith

theorem isPlanar (linked : tree.Linked) (breadthFirst : tree.BreadthFirst)
    (placement : Placement) : tree.IsPlanar (placement.slots tree) where
  size := tree.size_slots placement
  apart := linked.slots_apart breadthFirst placement
  uncrossed := by
    intro slot other level earlier here there
    obtain ⟨above, otherAbove, higher, parent, otherParent, aboveHere, aboveThere, -, order⟩ :=
      linked.exists_callers breadthFirst earlier here there
    refine ⟨above, otherAbove, parent, otherParent, ?_⟩
    rcases Nat.eq_or_lt_of_le order with rfl | order
    · exact le_refl _
    · have apart := linked.slots_apart breadthFirst placement order aboveHere aboveThere
      linarith

end Linked

end CallTree

/-! ### Unfolded recurrences -/

namespace Recurrence

variable {r : Recurrence} {view : View} {nodeLimit : UInt64} {unfolded : Unfolded}

/-- Whatever cuts an unfolding, the placement of its family draws it without
overlaps and crossings. -/
theorem unfold_isPlanar (ran : r.unfold view nodeLimit = .ok unfolded) :
    unfolded.tree.family = r.family ∧
      unfolded.tree.IsPlanar (unfolded.tree.family.placement.slots unfolded.tree) := by
  obtain ⟨budget, expansion, -, run, rfl⟩ := exists_of_unfold ran
  obtain ⟨Key, outline, keys, follows, -, listed⟩ := exists_follows_of_expand run
  constructor
  · rw [Unfolded.family_ofExpansion, family_of_expand run]
  · apply (Unfolded.linked_ofExpansion (linked_of_expand run)).isPlanar
    exact (Unfolded.follows_ofExpansion follows).breadthFirst listed

/-- A Fibonacci tree that the node limit cuts in the middle of a row. -/
theorem unfold_isPlanar_fibonacci :
    ∃ unfolded, (linearShift (.ofShifts [1, 2] 1)).unfold { initial := 9.5 } 12 = .ok unfolded ∧
      unfolded.tree.family = .linearShift ∧
      unfolded.tree.IsPlanar (unfolded.tree.family.placement.slots unfolded.tree) := by
  have settled : (linearShift (.ofShifts [1, 2] 1)).depth 9.5 none =
      .ok (.within 9 false none) := rfl
  obtain ⟨expansion, -, ran⟩ := unfold_eq_ok { initial := 9.5 } 12 settled
  exact ⟨_, ran, unfold_isPlanar ran⟩

end Recurrence

end Unfolding
