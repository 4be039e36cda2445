import Unfolding.Proofs.Expansion.Regularity
import Mathlib.Order.Bounds.Defs

/-!
The natural depth of a divide-and-conquer recurrence.

Settling the depth counts divisions.  Unfolding makes the same divisions once more,
level by level, and compares the other way round.  Both end on the same level.
-/

namespace Unfolding

namespace DivideConquer

variable {r : DivideConquer} {initial : Float} {requested : Option UInt32} {budget : DepthBudget}
  {level : Nat}

/-- The levels within the horizon on which the size is no longer above the
threshold. -/
def endLevels (r : DivideConquer) (initial : Float) : Set Nat :=
  {level | level ≤ depthHorizon ∧ ¬ r.sizeAt initial level > r.baseSize}

/-- A budget counts the divisions down to the threshold or to the horizon. -/
structure CountsDivisions (r : DivideConquer) (initial : Float) (budget : DepthBudget) : Prop where
  bounded : budget.natural ≤ depthHorizon
  above : ∀ level < budget.natural, r.sizeAt initial level > r.baseSize
  atHorizon_iff : budget.atHorizon = true ↔ r.sizeAt initial budget.natural > r.baseSize
  horizon : budget.atHorizon = true → budget.natural = depthHorizon

/-! ### Counting -/

/-- The count ends above the threshold only if no division is left. -/
theorem divisions_eq_add_left (reduction base : Float) (left : Nat) (size : Float) (depth : Nat)
    (above : (divisions reduction base left size depth).2 = true) :
    (divisions reduction base left size depth).1 = depth + left := by
  induction left generalizing size depth with
  | zero => rfl
  | succ left inductionHypothesis =>
      rw [divisions] at above ⊢
      by_cases large : size > base
      · rw [if_pos large] at above ⊢
        rw [inductionHypothesis _ _ above, Nat.add_right_comm, Nat.add_assoc]
      · rw [if_neg large] at above
        cases above

theorem countsDivisions_of_depth (settled : r.depth initial requested = .ok budget) :
    r.CountsDivisions initial budget := by
  obtain ⟨valid, accepted, -⟩ := depth_eq_ok settled
  obtain ⟨natural, counted, above⟩ := r.divisions_eq depthHorizon initial 0
  have bounded := divisions_le r.reduction r.baseSize depthHorizon initial 0
  have horizon := divisions_eq_add_left r.reduction r.baseSize depthHorizon initial 0
  rw [depth, valid, accepted, counted] at settled
  rw [counted] at bounded horizon
  simp only [Nat.zero_add] at bounded horizon settled
  cases settled
  exact ⟨bounded, above, decide_eq_true_iff, horizon⟩

namespace CountsDivisions

theorem natural_le_of_mem (counts : r.CountsDivisions initial budget)
    (member : level ∈ r.endLevels initial) : budget.natural ≤ level := by
  apply Nat.le_of_not_lt
  intro early
  exact member.2 (counts.above level early)

theorem natural_mem_iff (counts : r.CountsDivisions initial budget) :
    budget.natural ∈ r.endLevels initial ↔ budget.atHorizon = false := by
  rw [← Bool.not_eq_true, counts.atHorizon_iff]
  exact and_iff_right counts.bounded

theorem endLevels_nonempty_iff (counts : r.CountsDivisions initial budget) :
    (r.endLevels initial).Nonempty ↔ budget.atHorizon = false := by
  constructor
  · rintro ⟨level, member⟩
    rw [← Bool.not_eq_true]
    intro deep
    have lowest : level = budget.natural :=
      Nat.le_antisymm (counts.horizon deep ▸ member.1) (counts.natural_le_of_mem member)
    rw [lowest, counts.natural_mem_iff, deep] at member
    cases member
  · intro ends
    exact ⟨budget.natural, counts.natural_mem_iff.mpr ends⟩

/-- The count ends on the first level that is not above the threshold. -/
theorem isLeast_endLevels_iff (counts : r.CountsDivisions initial budget) :
    IsLeast (r.endLevels initial) level ↔ budget.atHorizon = false ∧ budget.natural = level := by
  constructor
  · rintro ⟨member, lower⟩
    have ends := counts.endLevels_nonempty_iff.mp ⟨level, member⟩
    exact ⟨ends, Nat.le_antisymm (counts.natural_le_of_mem member)
      (lower (counts.natural_mem_iff.mpr ends))⟩
  · rintro ⟨ends, rfl⟩
    exact ⟨counts.natural_mem_iff.mpr ends, fun _ => counts.natural_le_of_mem⟩

theorem endLevels_eq_empty_iff (counts : r.CountsDivisions initial budget) :
    r.endLevels initial = ∅ ↔ budget.atHorizon = true ∧ budget.natural = depthHorizon := by
  rw [← Set.not_nonempty_iff_eq_empty, counts.endLevels_nonempty_iff, Bool.not_eq_false]
  exact (and_iff_left_of_imp counts.horizon).symm

/-- Both comparisons agree down to the natural depth. -/
theorem isBase_iff (counts : r.CountsDivisions initial budget) (valid : r.check = .ok ())
    (accepted : checkInitialSize initial = .ok ()) (within : level ≤ budget.natural) :
    r.isBase (r.sizeAt initial level) = true ↔
      level = budget.natural ∧ budget.atHorizon = false := by
  rcases Nat.lt_or_eq_of_le within with early | rfl
  · rw [isBase_eq_false_of_gt (counts.above level early)]
    simp [Nat.ne_of_lt early]
  · rw [← Bool.not_eq_true budget.atHorizon, counts.atHorizon_iff, and_iff_right rfl]
    constructor
    · intro base large
      rw [isBase_eq_false_of_gt large] at base
      cases base
    · exact isBase_eq_true_of_not_gt valid accepted

end CountsDivisions

/-! ### Unfolding -/

variable {expansion : Expansion}

/-- An unfolding down to the natural depth ends there, unless it is stopped. -/
theorem Outcome.levels_of_countsDivisions (outcome : r.Outcome initial budget.natural expansion)
    (valid : r.check = .ok ()) (accepted : checkInitialSize initial = .ok ())
    (counts : r.CountsDivisions initial budget) (unstopped : expansion.stop = none) :
    expansion.tree.levelCount = budget.natural + 1 ∧
      expansion.tree.rowWidths.size = budget.natural + 1 ∧
      ∀ call ∈ expansion.tree.calls,
        call.isBase = true ↔ call.level = budget.natural ∧ budget.atHorizon = false := by
  obtain ⟨last, follows, -, widths, ends⟩ := outcome.exists_last
  obtain ⟨within, ended⟩ := ends unstopped
  -- above the natural depth the count has found no size that ends the rows
  obtain rfl : last = budget.natural := by
    rcases ended with full | base
    · exact full
    · exact ((counts.isBase_iff valid accepted within).mp base).1
  refine ⟨levelCount_of_follows (reduction_of_check valid).1 follows, ?_, ?_⟩
  · rw [← Array.length_toList, widths, List.length_map, List.length_range]
  · intro call member
    obtain ⟨slot, found⟩ := Array.getElem?_of_mem member
    obtain ⟨key, place, described⟩ := follows.key_of_call found
    have shallow := (mem_callsThrough_iff.mp (List.mem_of_getElem? place)).1
    rw [described.isBase, described.level]
    exact counts.isBase_iff valid accepted shallow

/-- The natural depth is the first level that is not above the threshold, if there is
one within the horizon.  An unfolding that neither a request nor the limit cuts ends
there, with its only base cases. -/
theorem natural_depth_agrees (valid : r.check = .ok ())
    (accepted : checkInitialSize initial = .ok ()) (requested : Option UInt32)
    (nodeLimit : UInt64) :
    ∃ budget expansion, r.depth initial requested = .ok budget ∧
      r.expand initial budget.effective nodeLimit = .ok expansion ∧
      (∀ level, IsLeast (r.endLevels initial) level ↔
        budget.atHorizon = false ∧ budget.natural = level) ∧
      (r.endLevels initial = ∅ ↔ budget.atHorizon = true ∧ budget.natural = depthHorizon) ∧
      (budget.effective = budget.natural → expansion.stop = none →
        expansion.tree.levelCount = budget.natural + 1 ∧
        expansion.tree.rowWidths.size = budget.natural + 1 ∧
        ∀ call ∈ expansion.tree.calls,
          call.isBase = true ↔ call.level = budget.natural ∧ budget.atHorizon = false) := by
  obtain ⟨natural, atHorizon, -, settles⟩ :=
    Recurrence.exists_natural (r := .divideConquer r) valid accepted
  have counts := countsDivisions_of_depth (settles requested)
  obtain ⟨expansion, run, outcome⟩ :=
    r.expand_outcome initial (DepthBudget.within natural atHorizon requested).effective nodeLimit
  refine ⟨_, expansion, settles requested, run, fun _ => counts.isLeast_endLevels_iff,
    counts.endLevels_eq_empty_iff, ?_⟩
  intro full unstopped
  rw [full] at outcome
  exact outcome.levels_of_countsDivisions valid accepted counts unstopped

/-- The sizes are 10, 4, 1.6 and 0.64. -/
theorem natural_depth_agrees_binary :
    let binary : DivideConquer := { branching := 2, reduction := 2.5, work := "n", threshold := 1 }
    binary.check = .ok () ∧ checkInitialSize 10 = .ok () ∧ IsLeast (binary.endLevels 10) 3 ∧
      ∃ expansion, binary.expand 10 3 15 = .ok expansion ∧ expansion.tree.levelCount = 4 ∧
        ∀ call ∈ expansion.tree.calls, call.isBase = true ↔ call.level = 3 := by
  have accepted : checkInitialSize 10 = .ok () := rfl
  obtain ⟨budget, expansion, settled, run, least, -, levels⟩ :=
    natural_depth_agrees (r := ⟨2, 2.5, "n", 1⟩) rfl accepted none 15
  obtain rfl : DepthBudget.within 3 false none = budget := Except.ok.inj settled
  have unstopped : expansion.stop = none :=
    (Except.ok.inj (congrArg (Except.map Expansion.stop) run)).symm
  obtain ⟨count, -, bases⟩ := levels rfl unstopped
  refine ⟨rfl, accepted, (least 3).mpr ⟨rfl, rfl⟩, expansion, run, count, ?_⟩
  intro call member
  exact (bases call member).trans (and_iff_left rfl)

end DivideConquer

end Unfolding
