import Unfolding.Proofs.Expansion.Division
import Unfolding.Proofs.Number.Double

/-!
What a settled depth says about the calls of a recurrence.
-/

namespace Unfolding

namespace DepthBudget

variable {natural : Nat} {atHorizon : Bool} {requested : Option UInt32}

theorem effective_within_of_le
    (generous : ∀ depth, requested = some depth → natural ≤ depth.toNat) :
    (within natural atHorizon requested).effective = natural := by
  cases requested with
  | none => exact Nat.min_self natural
  | some depth => exact Nat.min_eq_right (generous depth rfl)

/-- A smaller request leaves less depth; to request none is to request all of it. -/
theorem effective_within_mono {wider : Option UInt32}
    (smaller : ∀ deeper, wider = some deeper → ∃ depth, requested = some depth ∧ depth ≤ deeper) :
    (within natural atHorizon requested).effective ≤
      (within natural atHorizon wider).effective := by
  cases wider with
  | none =>
      change _ ≤ min natural natural
      rw [Nat.min_self]
      exact Nat.min_le_right _ _
  | some deeper =>
      obtain ⟨depth, rfl, le⟩ := smaller deeper rfl
      change min depth.toNat natural ≤ min deeper.toNat natural
      have words := UInt32.le_iff_toNat_le.mp le
      omega

theorem isHorizonBound_within_iff :
    (within natural atHorizon requested).isHorizonBound = true ↔
      atHorizon = true ∧ ∀ depth, requested = some depth → natural ≤ depth.toNat := by
  unfold isHorizonBound isCapped
  rw [Bool.and_eq_true, Bool.not_eq_true', decide_eq_false_iff_not, Nat.not_lt]
  refine and_congr_right fun _ => ?_
  cases requested with
  | none => simp [within]
  | some depth =>
      change natural ≤ min depth.toNat natural ↔ _
      rw [Nat.le_min, and_iff_left (Nat.le_refl natural)]
      constructor
      · rintro enough other ⟨⟩
        exact enough
      · intro generous
        exact generous depth rfl

theorem atHorizon_eq_false
    (unbound : (within natural atHorizon requested).isHorizonBound = false)
    (generous : ∀ depth, requested = some depth → natural ≤ depth.toNat) :
    atHorizon = false := by
  cases atHorizon with
  | false => rfl
  | true =>
      rw [isHorizonBound_within_iff.mpr ⟨rfl, generous⟩] at unbound
      cases unbound

end DepthBudget

theorem isFinite_of_checkInitialSize {initial : Float}
    (accepted : checkInitialSize initial = .ok ()) : initial.isFinite = true := by
  unfold checkInitialSize at accepted
  split at accepted
  · cases accepted
  · rename_i conditions
    rw [not_or, Decidable.not_not] at conditions
    exact conditions.1

namespace LinearShift

variable {r : LinearShift} {initial : Float} {requested : Option UInt32} {budget : DepthBudget}

theorem depth_eq_ok_iff :
    r.depth initial requested = .ok budget ↔
      r.check = .ok () ∧ checkInitialSize initial = .ok () ∧
        .within (min (Number.wholePart initial) depthHorizon)
          (depthHorizon < Number.wholePart initial) requested = budget := by
  unfold depth
  cases r.check with
  | error fault => simp [bind, Except.bind]
  | ok _ =>
      cases checkInitialSize initial with
      | error fault => simp [bind, Except.bind]
      | ok _ => simp [bind, Except.bind, pure, Except.pure]

end LinearShift

namespace DivideConquer

variable {r : DivideConquer} {initial : Float} {requested : Option UInt32} {budget : DepthBudget}

theorem divisions_le (reduction base : Float) (left : Nat) (size : Float) (depth : Nat) :
    (divisions reduction base left size depth).1 ≤ depth + left := by
  induction left generalizing size depth with
  | zero => exact Nat.le_refl depth
  | succ left inductionHypothesis =>
      rw [divisions]
      split
      · have further := inductionHypothesis (size / reduction) (depth + 1)
        omega
      · exact Nat.le_add_right depth _

/-- The divisions that are counted are those that the levels go through. -/
theorem divisions_eq (left : Nat) (size : Float) (depth : Nat) :
    ∃ count, divisions r.reduction r.baseSize left size depth =
        (depth + count, decide (r.sizeAt size count > r.baseSize)) ∧
      ∀ level < count, r.sizeAt size level > r.baseSize := by
  induction left generalizing size depth with
  | zero =>
      refine ⟨0, rfl, ?_⟩
      intro level below
      exact absurd below (Nat.not_lt_zero level)
  | succ left inductionHypothesis =>
      rw [divisions]
      by_cases large : size > r.baseSize
      · obtain ⟨count, counted, above⟩ := inductionHypothesis (size / r.reduction) (depth + 1)
        refine ⟨count + 1, ?_, ?_⟩
        · rw [if_pos large, counted, sizeAt_div, Nat.add_right_comm, Nat.add_assoc]
        · intro level below
          cases level with
          | zero => exact large
          | succ level =>
              rw [← sizeAt_div]
              exact above level (Nat.lt_of_succ_lt_succ below)
      · refine ⟨0, ?_, ?_⟩
        · rw [if_neg large]
          simp [sizeAt, large]
        · intro level below
          exact absurd below (Nat.not_lt_zero level)

theorem depth_eq_ok (settled : r.depth initial requested = .ok budget) :
    r.check = .ok () ∧ checkInitialSize initial = .ok () ∧ ∃ natural,
      .within natural (r.sizeAt initial natural > r.baseSize) requested = budget ∧
        ∀ level < natural, r.sizeAt initial level > r.baseSize := by
  obtain ⟨natural, counted, above⟩ := r.divisions_eq depthHorizon initial 0
  rw [Nat.zero_add] at counted
  unfold depth at settled
  rw [counted] at settled
  cases valid : r.check with
  | error fault =>
      rw [valid] at settled
      cases settled
  | ok _ =>
      cases accepted : checkInitialSize initial with
      | error fault =>
          rw [valid, accepted] at settled
          cases settled
      | ok _ =>
          rw [valid, accepted] at settled
          exact ⟨rfl, rfl, natural, Except.ok.inj settled, above⟩

/-- What a checked recurrence divides by. -/
theorem reduction_of_check (valid : r.check = .ok ()) :
    0 < r.branching.toNat ∧ r.reduction.isFinite = true ∧ ¬ r.reduction ≤ 1 := by
  unfold check at valid
  split at valid
  · cases valid
  · rename_i branches
    split at valid
    · cases valid
    · rename_i reduces
      rw [not_or, Decidable.not_not] at reduces
      refine ⟨?_, reduces⟩
      apply Nat.pos_of_ne_zero
      intro none
      exact branches (UInt32.toNat_inj.mp none)

theorem isNaN_sizeAt (valid : r.check = .ok ()) (accepted : checkInitialSize initial = .ok ())
    (level : Nat) : (r.sizeAt initial level).isNaN = false := by
  obtain ⟨-, finite, above⟩ := reduction_of_check valid
  induction level with
  | zero => exact Number.isNaN_of_isFinite (isFinite_of_checkInitialSize accepted)
  | succ level inductionHypothesis => exact Number.isNaN_div inductionHypothesis finite above

theorem isBase_eq_false_of_gt {size : Float} (large : size > r.baseSize) :
    r.isBase size = false :=
  decide_eq_false (Number.not_le_of_lt large)

/-- Counting divisions and telling base cases agree on numbers. -/
theorem isBase_eq_true_of_not_gt (valid : r.check = .ok ())
    (accepted : checkInitialSize initial = .ok ()) {level : Nat}
    (small : ¬ r.sizeAt initial level > r.baseSize) :
    r.isBase (r.sizeAt initial level) = true :=
  decide_eq_true ((Number.not_lt_iff_le (isNaN_sizeAt valid accepted level)
    (Number.isNaN_ofInt _)).mp small)

end DivideConquer

namespace Recurrence

variable {r : Recurrence} {initial : Float}

/-- A checked recurrence has a natural depth, whatever depth is requested. -/
theorem exists_natural (valid : r.check = .ok ()) (accepted : checkInitialSize initial = .ok ()) :
    ∃ natural atHorizon, natural ≤ depthHorizon ∧ ∀ requested,
      r.depth initial requested = .ok (.within natural atHorizon requested) := by
  cases r with
  | divideConquer r =>
      obtain ⟨natural, counted, -⟩ := r.divisions_eq depthHorizon initial 0
      have bounded := DivideConquer.divisions_le r.reduction r.baseSize depthHorizon initial 0
      rw [counted, Nat.zero_add depthHorizon] at bounded
      refine ⟨0 + natural, r.sizeAt initial natural > r.baseSize, bounded, fun requested => ?_⟩
      change r.depth initial requested = _
      rw [DivideConquer.depth, show r.check = .ok () from valid, accepted, counted]
      rfl
  | linearShift r =>
      exact ⟨_, _, Nat.min_le_right _ _,
        fun requested => LinearShift.depth_eq_ok_iff.mpr ⟨valid, accepted, rfl⟩⟩

/-- Only checked recurrences have a depth. -/
theorem accepted_of_depth {requested : Option UInt32} {budget : DepthBudget}
    (settled : r.depth initial requested = .ok budget) :
    r.check = .ok () ∧ checkInitialSize initial = .ok () := by
  cases r with
  | divideConquer r =>
      obtain ⟨valid, accepted, -⟩ := DivideConquer.depth_eq_ok settled
      exact ⟨valid, accepted⟩
  | linearShift r =>
      obtain ⟨valid, accepted, -⟩ := LinearShift.depth_eq_ok_iff.mp settled
      exact ⟨valid, accepted⟩

/-- A request is kept, and no depth goes beyond the horizon. -/
theorem within_of_depth {requested : Option UInt32} {budget : DepthBudget}
    (settled : r.depth initial requested = .ok budget) :
    budget.requested = requested ∧ budget.effective ≤ budget.natural ∧
      budget.natural ≤ depthHorizon := by
  obtain ⟨valid, accepted⟩ := accepted_of_depth settled
  obtain ⟨natural, atHorizon, bounded, settles⟩ := exists_natural valid accepted
  obtain rfl : budget = .within natural atHorizon requested :=
    Except.ok.inj (settled.symm.trans (settles requested))
  exact ⟨rfl, Nat.min_le_right _ _, bounded⟩

end Recurrence

end Unfolding
