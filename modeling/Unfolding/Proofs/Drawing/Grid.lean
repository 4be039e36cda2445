import Unfolding.Proofs.Number.Rational
import Unfolding.Proofs.Words.Placement

/-!
The levels of a grid.

The calls of a level are numbered in the order of their slots, however the levels are
mixed in that order.  The places are computed with doubles, and since they are halves of
small whole numbers, nothing is rounded: a level stands around zero with steps of one.
-/

namespace Unfolding

namespace CallTree

variable {tree : CallTree} {level : Nat}

/-- The slots of the calls on a level. -/
def rowSlots (tree : CallTree) (level : Nat) : List Nat :=
  (List.range tree.size).filter fun slot => tree.level? slot = some level

/-- Where the calls of a level stand on the grid, as exact numbers, in the order of their
slots. -/
def gridRow (tree : CallTree) (level : Nat) : List (Option ℚ) :=
  (tree.rowSlots level).map fun slot =>
    (tree.gridSlots : Array Float)[slot]?.bind Number.exactValue?

/-! ### Indices on a level -/

theorem mem_rowSlots_iff {slot : Nat} :
    slot ∈ tree.rowSlots level ↔ tree.level? slot = some level := by
  rw [rowSlots, List.mem_filter, List.mem_range, decide_eq_true_iff, and_iff_right_iff_imp]
  exact lt_size_of_level?

/-- Up to any slot, the calls of a level have the indices from zero on. -/
theorem map_earlierOn_filter {count : Nat} (inside : count ≤ tree.size) :
    ((List.range count).filter fun slot => tree.level? slot = some level).map
        (tree.earlierOn · level) =
      List.range (tree.earlierOn count level) := by
  induction count with
  | zero => rfl
  | succ count inductionHypothesis =>
      obtain ⟨call, found⟩ := lt_size_iff.mp inside
      have here : tree.level? count = some call.level := by rw [level?, found, Option.map_some]
      rw [List.range_succ, List.filter_append, List.map_append,
        inductionHypothesis (Nat.le_of_succ_le inside), Words.earlierOn_succ found]
      by_cases same : call.level = level
      · simp [here, same, List.range_succ]
      · simp [here, same]

theorem earlierOn_size (tree : CallTree) (level : Nat) :
    tree.earlierOn tree.size level = tree.callsOn level := by
  have whole : tree.calls.toList.take tree.size = tree.calls.toList :=
    List.take_of_length_le (Nat.le_of_eq Array.length_toList)
  rw [earlierOn, callsOn, whole]

theorem map_earlierOn_rowSlots (tree : CallTree) (level : Nat) :
    (tree.rowSlots level).map (tree.earlierOn · level) = List.range (tree.callsOn level) := by
  rw [rowSlots, map_earlierOn_filter (Nat.le_refl _), earlierOn_size]

/-! ### Places -/

/-- The places of the calls on a level: steps of one around zero. -/
def centredPlaces (width : Nat) : List ℚ :=
  (List.range width).map fun (index : Nat) => (index : ℚ) - ((width : ℚ) - 1) / 2

theorem nodup_centredPlaces (width : Nat) : (centredPlaces width).Nodup := by
  rw [centredPlaces]
  apply List.nodup_range.map
  intro index other same
  exact_mod_cast sub_left_injective same

theorem sum_centredPlaces (width : Nat) : (centredPlaces width).sum = 0 := by
  have total (count : Nat) (middle : ℚ) :
      ((List.range count).map fun (index : Nat) => (index : ℚ) - middle).sum =
        count * ((count - 1) / 2 - middle) := by
    induction count with
    | zero => simp
    | succ count inductionHypothesis =>
        rw [List.range_succ, List.map_append, List.sum_append, inductionHypothesis,
          List.map_singleton, List.sum_singleton]
        push_cast
        ring
  rw [centredPlaces, total, sub_self, mul_zero]

/-- Places on a grid are not rounded. -/
theorem exactValue?_gridSlot {index width : Nat} (inside : index < width)
    (bounded : width < 2 ^ 52) :
    Number.exactValue? (gridSlot index width) = some ((index : ℚ) - ((width : ℚ) - 1) / 2) := by
  obtain ⟨last, rfl⟩ := Nat.exists_eq_succ_of_ne_zero (Nat.ne_zero_of_lt inside)
  have steps : ((last + 1 : Nat) : ℚ) - (1 : Nat) = last := by
    rw [Nat.cast_add, add_sub_cancel_right]
  have length : Number.exactValue? (Float.ofNat (last + 1) - Float.ofNat 1) = some (last : ℚ) := by
    rw [← steps]
    apply Number.exactValue?_sub (Number.exactValue?_ofNat (by omega))
      (Number.exactValue?_ofNat (by decide))
    rw [steps]
    exact Number.fits_natCast (by omega)
  have start :
      Number.exactValue? (Float.ofNat index) = some (((2 * index : Nat) : Int) / 2 : ℚ) := by
    rw [Number.exactValue?_ofNat (by omega)]
    push_cast
    ring_nf
  have middle := Number.exactValue?_div_two length (by omega)
  rw [← Int.cast_natCast] at middle
  change Number.exactValue? (Float.ofNat index -
    (Float.ofNat (last + 1) - Float.ofNat 1) / Float.ofNat 2) = _
  rw [Number.exactValue?_sub_halves start middle (by omega)]
  push_cast
  ring_nf

theorem gridRow_eq (bounded : tree.size ≤ capacity) (level : Nat) :
    tree.gridRow level = (centredPlaces (tree.callsOn level)).map some := by
  have places : tree.gridRow level = (tree.rowSlots level).map fun slot =>
      some ((tree.earlierOn slot level : ℚ) - ((tree.callsOn level : ℚ) - 1) / 2) := by
    apply List.map_congr_left
    intro slot member
    obtain ⟨call, found, rfl⟩ := Option.map_eq_some_iff.mp (mem_rowSlots_iff.mp member)
    have few : tree.callsOn call.level < 2 ^ 52 :=
      Nat.lt_of_le_of_lt (Nat.le_trans (tree.callsOn_le call.level) bounded) (by decide)
    have index : tree.earlierOn slot call.level < tree.callsOn call.level := by
      rw [← earlierOn_size]
      exact earlierOn_lt (lt_size_iff.mpr ⟨call, found⟩) (mem_rowSlots_iff.mp member)
    rw [Words.getElem?_gridSlots found, Option.bind_some, exactValue?_gridSlot index few]
  rw [places, centredPlaces, ← map_earlierOn_rowSlots, List.map_map, List.map_map]
  rfl

/-- However a tree was built, the calls of a level stand on the grid in the order of their
slots, in steps of one around zero, no two of them at the same place. -/
theorem history_centres_levels (family : Family) (changes : List Edit) (level : Nat) :
    let tree := attemptAll { family } changes
    tree.gridRow level = (centredPlaces (tree.callsOn level)).map some ∧
    (centredPlaces (tree.callsOn level)).sum = 0 ∧
    ∀ slot other, tree.level? slot = some level → tree.level? other = some level →
      (tree.gridSlots : Array Float)[slot]? = (tree.gridSlots : Array Float)[other]? →
        slot = other := by
  have bounded : (attemptAll { family } changes).size ≤ capacity :=
    size_attemptAll_le (Nat.zero_le _) changes
  generalize attemptAll { family } changes = tree at bounded
  dsimp only
  have row := gridRow_eq bounded level
  refine ⟨row, sum_centredPlaces _, ?_⟩
  intro slot other here there same
  have distinct : (tree.gridRow level).Nodup := by
    rw [row]
    exact (nodup_centredPlaces _).map (Option.some_injective ℚ)
  apply List.inj_on_of_nodup_map distinct (mem_rowSlots_iff.mpr here) (mem_rowSlots_iff.mpr there)
  rw [same]

end CallTree

end Unfolding
