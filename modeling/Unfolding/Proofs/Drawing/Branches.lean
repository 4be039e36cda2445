import Unfolding.Proofs.Drawing.Separation
import Mathlib.Logic.Relation

/-!
Calls on different branches are drawn apart.

Two calls of which neither is above the other part below the lowest call that is
above both.  The calls that it makes on the two ways have ranges side by side, and
on each way down the ranges lie within each other.  So a centred drawing keeps the
two a unit apart, whatever their levels, in the order in which the two branches
were begun.
-/

namespace Unfolding

namespace CallTree

variable {tree : CallTree} {above slot other fork left right : Nat}

/-- The call in slot `above` is the one in `slot`, or leads to it by way of others. -/
def IsAbove (tree : CallTree) (above slot : Nat) : Prop :=
  Relation.ReflTransGen (fun slot caller => tree.parent? slot = some caller) slot above

/-- Two calls part below `fork`: what is above both is above it, and `left` and
`right` are the calls that it makes on the two ways. -/
structure PartAt (tree : CallTree) (slot other fork left right : Nat) : Prop where
  lowest : ∀ above, tree.IsAbove above fork ↔ tree.IsAbove above slot ∧ tree.IsAbove above other
  made : tree.parent? left = some fork ∧ tree.parent? right = some fork
  ways : tree.IsAbove left slot ∧ tree.IsAbove right other

namespace IsAbove

theorem trans (way : tree.IsAbove above slot) (further : tree.IsAbove slot other) :
    tree.IsAbove above other :=
  Relation.ReflTransGen.trans further way

theorem of_parent? (made : tree.parent? slot = some above) : tree.IsAbove above slot :=
  .single made

/-- Of two calls above a third, one is above the other. -/
theorem total (way : tree.IsAbove above slot) (otherWay : tree.IsAbove other slot) :
    tree.IsAbove other above ∨ tree.IsAbove above other := by
  apply Relation.ReflTransGen.total_of_right_unique _ way otherWay
  intro slot caller same made sameMade
  exact Option.some.inj (made.symm.trans sameMade)

/-- What is above a call is the call itself or above its caller. -/
theorem iff_of_parent? (made : tree.parent? slot = some fork) :
    tree.IsAbove above slot ↔ above = slot ∨ tree.IsAbove above fork := by
  constructor
  · intro way
    rcases Relation.ReflTransGen.cases_head way with same | ⟨caller, sameMade, rest⟩
    · exact .inl same.symm
    · obtain rfl := Option.some.inj (made.symm.trans sameMade)
      exact .inr rest
  · rintro (rfl | way)
    · exact .refl
    · exact way.trans (.of_parent? made)

theorem iff_of_root (root : tree.parent? slot = none) : tree.IsAbove above slot ↔ above = slot := by
  apply Relation.reflTransGen_iff_eq
  intro caller made
  rw [root] at made
  cases made

/-- A way down begins with a call that the upper call makes. -/
theorem exists_made (way : tree.IsAbove above slot) (ne : above ≠ slot) :
    ∃ child, tree.parent? child = some above ∧ tree.IsAbove child slot := by
  rcases Relation.ReflTransGen.cases_tail way with same | ⟨child, rest, made⟩
  · exact absurd same ne
  · exact ⟨child, made, rest⟩

/-- A property that is lost on a way down is lost from some caller to its call. -/
theorem exists_lost (Holds : Nat → Prop) (way : tree.IsAbove above slot) (holds : Holds above)
    (lost : ¬ Holds slot) :
    ∃ caller child, tree.parent? child = some caller ∧ tree.IsAbove child slot ∧
      Holds caller ∧ ¬ Holds child := by
  induction way using Relation.ReflTransGen.head_induction_on with
  | refl => exact absurd holds lost
  | @head slot caller made rest inductionHypothesis =>
      by_cases here : Holds caller
      · exact ⟨caller, slot, made, .refl, here, lost⟩
      · obtain ⟨upper, child, upperMade, below, kept, childLost⟩ := inductionHypothesis here
        exact ⟨upper, child, upperMade, below.trans (.of_parent? made), kept, childLost⟩

end IsAbove

theorem PartAt.symm (part : tree.PartAt slot other fork left right) :
    tree.PartAt other slot fork right left where
  lowest above := (part.lowest above).trans And.comm
  made := part.made.symm
  ways := part.ways.symm

namespace Linked

/-! ### Where two calls part -/

theorem le_of_isAbove (linked : tree.Linked) (way : tree.IsAbove above slot) : above ≤ slot := by
  induction way with
  | refl => exact Nat.le_refl slot
  | tail _ made inductionHypothesis =>
      exact Nat.le_trans (Nat.le_of_lt (linked.caller made).1) inductionHypothesis

theorem isAbove_root (linked : tree.Linked) (inside : slot < tree.size) : tree.IsAbove 0 slot := by
  induction slot using Nat.strong_induction_on with
  | _ slot inductionHypothesis =>
      rcases Nat.eq_zero_or_pos slot with rfl | notRoot
      · exact .refl
      · obtain ⟨parent, made⟩ := linked.exists_parent notRoot inside
        have earlier := (linked.caller made).1
        exact (inductionHypothesis parent earlier (Nat.lt_trans earlier inside)).trans
          (.of_parent? made)

/-- Calls of which neither is above the other part somewhere. -/
theorem exists_partAt (linked : tree.Linked) (inside : slot < tree.size)
    (otherInside : other < tree.size) (notAbove : ¬ tree.IsAbove slot other)
    (notBelow : ¬ tree.IsAbove other slot) :
    ∃ fork left right, tree.PartAt slot other fork left right := by
  -- from the root down to `slot`, the last call that is above `other` too
  obtain ⟨fork, left, leftMade, leftWay, common, lost⟩ :=
    (linked.isAbove_root inside).exists_lost (tree.IsAbove · other)
      (linked.isAbove_root otherInside) notAbove
  have forkWay : tree.IsAbove fork slot := (IsAbove.of_parent? leftMade).trans leftWay
  have forkNe : fork ≠ other := by
    rintro rfl
    exact notBelow forkWay
  obtain ⟨right, rightMade, rightWay⟩ := common.exists_made forkNe
  refine ⟨fork, left, right, ?_, ⟨leftMade, rightMade⟩, ⟨leftWay, rightWay⟩⟩
  intro above
  constructor
  · intro way
    exact ⟨way.trans forkWay, way.trans common⟩
  · rintro ⟨way, otherWay⟩
    rcases leftWay.total way with higher | lower
    · rcases (IsAbove.iff_of_parent? leftMade).mp higher with rfl | higher
      · exact absurd otherWay lost
      · exact higher
    · exact absurd (lower.trans otherWay) lost

/-- The two ways begin with different calls. -/
theorem ne_of_partAt (linked : tree.Linked) (part : tree.PartAt slot other fork left right) :
    left ≠ right := by
  rintro rfl
  have higher := linked.le_of_isAbove ((part.lowest left).mpr part.ways)
  exact Nat.not_lt_of_le higher (linked.caller part.made.1).1

/-! ### Ranges of branches -/

/-- The range of a call holds those of all calls that it leads to. -/
theorem range_within_of_isAbove (linked : tree.Linked) (way : tree.IsAbove above slot) :
    tree.rangeStart above ≤ tree.rangeStart slot ∧
      tree.rangeStart slot + tree.leafCount slot ≤
        tree.rangeStart above + tree.leafCount above := by
  induction way with
  | refl => exact ⟨Nat.le_refl _, Nat.le_refl _⟩
  | tail _ made inductionHypothesis =>
      obtain ⟨start, finish⟩ := linked.range_within (linked.mem_children_iff.mpr made)
      exact ⟨Nat.le_trans start inductionHypothesis.1, Nat.le_trans inductionHypothesis.2 finish⟩

/-- Branches that were begun one after the other have their ranges in this order. -/
theorem ranges_of_partAt (linked : tree.Linked) (part : tree.PartAt slot other fork left right)
    (earlier : left < right) :
    tree.rangeStart slot + tree.leafCount slot ≤ tree.rangeStart other :=
  calc tree.rangeStart slot + tree.leafCount slot
      ≤ tree.rangeStart left + tree.leafCount left :=
        (linked.range_within_of_isAbove part.ways.1).2
    _ ≤ tree.rangeStart right :=
        linked.range_siblings (linked.mem_children_iff.mpr part.made.1)
          (linked.mem_children_iff.mpr part.made.2) earlier
    _ ≤ tree.rangeStart other := (linked.range_within_of_isAbove part.ways.2).1

/-- A call stands half a unit within its range, so calls on different branches are a
unit apart. -/
theorem centredSlots_of_partAt (linked : tree.Linked) (inside : slot < tree.size)
    (otherInside : other < tree.size) (part : tree.PartAt slot other fork left right)
    (earlier : left < right) :
    (tree.centredSlots : Array ℚ).getD slot 0 + 1 ≤ (tree.centredSlots : Array ℚ).getD other 0 := by
  have apart : (tree.rangeStart slot : ℚ) + tree.leafCount slot ≤ tree.rangeStart other := by
    exact_mod_cast linked.ranges_of_partAt part earlier
  have finish := (linked.rangeCentre_within inside).2
  have start := (linked.rangeCentre_within otherInside).1
  rw [getD_centredSlots inside, getD_centredSlots otherInside]
  linarith

theorem centredSlots_lt_iff (linked : tree.Linked) (inside : slot < tree.size)
    (otherInside : other < tree.size) (part : tree.PartAt slot other fork left right) :
    (tree.centredSlots : Array ℚ).getD slot 0 < (tree.centredSlots : Array ℚ).getD other 0 ↔
      left < right := by
  constructor
  · intro before
    by_contra later
    have swapped : right < left :=
      Nat.lt_of_le_of_ne (Nat.le_of_not_lt later) (linked.ne_of_partAt part).symm
    have behind := linked.centredSlots_of_partAt otherInside inside part.symm swapped
    linarith
  · intro earlier
    have apart := linked.centredSlots_of_partAt inside otherInside part earlier
    linarith

theorem one_le_abs_centredSlots (linked : tree.Linked) (inside : slot < tree.size)
    (otherInside : other < tree.size) (part : tree.PartAt slot other fork left right) :
    1 ≤ |(tree.centredSlots : Array ℚ).getD slot 0 -
      (tree.centredSlots : Array ℚ).getD other 0| := by
  rw [le_abs]
  rcases Nat.lt_or_gt_of_ne (linked.ne_of_partAt part) with earlier | later
  · right
    have apart := linked.centredSlots_of_partAt inside otherInside part earlier
    linarith
  · left
    have apart := linked.centredSlots_of_partAt otherInside inside part.symm later
    linarith

end Linked

/-- Whatever edits are tried on an empty tree, calls of which neither is above the
other are drawn at least a unit apart, in the order in which the branches below
their lowest common caller were begun.  Calls get their slots in the order in which
they are added. -/
theorem history_draws_branches_apart (family : Family) (changes : List Edit) :
    let tree := attemptAll { family } changes
    let cross : Array ℚ := tree.centredSlots
    cross.size = tree.size ∧
    ∀ slot < tree.size, ∀ other < tree.size,
      ¬ tree.IsAbove slot other → ¬ tree.IsAbove other slot →
        1 ≤ |cross.getD slot 0 - cross.getD other 0| ∧
        (∃ fork left right, tree.PartAt slot other fork left right) ∧
        ∀ fork left right, tree.PartAt slot other fork left right →
          (cross.getD slot 0 < cross.getD other 0 ↔ left < right) := by
  have linked : (attemptAll { family } changes).Linked := (Linked.of_empty rfl).attemptAll changes
  generalize attemptAll { family } changes = tree at linked
  refine ⟨tree.size_slots .centred, ?_⟩
  intro slot inside other otherInside notAbove notBelow
  obtain ⟨fork, left, right, part⟩ := linked.exists_partAt inside otherInside notAbove notBelow
  refine ⟨linked.one_le_abs_centredSlots inside otherInside part, ⟨fork, left, right, part⟩, ?_⟩
  intro fork left right part
  exact linked.centredSlots_lt_iff inside otherInside part

/-- The branch that was begun first is finished last, and goes deeper. -/
theorem history_draws_branches_apart_interleaved :
    let tree := attemptAll { family := .linearShift }
      [.addRoot "n" 3 false, .addChild 0 "n.0" 2 false, .addChild 0 "n.1" 1 false,
        .addChild 2 "n.1.0" 0 true, .addChild 1 "n.0.0" 1 false, .addChild 4 "n.0.0.0" 0 true]
    let cross : Array ℚ := tree.centredSlots
    tree.size = 6 ∧ ¬ tree.IsAbove 5 3 ∧ ¬ tree.IsAbove 3 5 ∧ tree.PartAt 5 3 0 1 2 ∧
      1 ≤ |cross.getD 5 0 - cross.getD 3 0| ∧ cross.getD 5 0 < cross.getD 3 0 := by
  intro tree cross
  have ofRoot (above : Nat) : tree.IsAbove above 0 ↔ above = 0 := IsAbove.iff_of_root rfl
  have ofLeft (above : Nat) :
      tree.IsAbove above 5 ↔ above = 5 ∨ above = 4 ∨ above = 1 ∨ above = 0 := by
    have first : tree.parent? 5 = some 4 := rfl
    have second : tree.parent? 4 = some 1 := rfl
    have third : tree.parent? 1 = some 0 := rfl
    rw [IsAbove.iff_of_parent? first, IsAbove.iff_of_parent? second, IsAbove.iff_of_parent? third,
      ofRoot]
  have ofRight (above : Nat) : tree.IsAbove above 3 ↔ above = 3 ∨ above = 2 ∨ above = 0 := by
    have first : tree.parent? 3 = some 2 := rfl
    have second : tree.parent? 2 = some 0 := rfl
    rw [IsAbove.iff_of_parent? first, IsAbove.iff_of_parent? second, ofRoot]
  have notAbove : ¬ tree.IsAbove 5 3 := by simp [ofRight]
  have notBelow : ¬ tree.IsAbove 3 5 := by simp [ofLeft]
  have part : tree.PartAt 5 3 0 1 2 := by
    refine ⟨?_, ⟨rfl, rfl⟩, by simp [ofLeft], by simp [ofRight]⟩
    intro above
    rw [ofRoot, ofLeft, ofRight]
    omega
  obtain ⟨-, apart⟩ := history_draws_branches_apart .linearShift
    [.addRoot "n" 3 false, .addChild 0 "n.0" 2 false, .addChild 0 "n.1" 1 false,
      .addChild 2 "n.1.0" 0 true, .addChild 1 "n.0.0" 1 false, .addChild 4 "n.0.0.0" 0 true]
  obtain ⟨unit, -, order⟩ := apart 5 (by decide) 3 (by decide) notAbove notBelow
  exact ⟨rfl, notAbove, notBelow, part, unit, (order 0 1 2 part).mpr (by decide)⟩

end CallTree

end Unfolding
