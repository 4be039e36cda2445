import Unfolding.Proofs.Generation

/-!
What it means that a drawing is marked as truncated.

An unfolding is marked if the node limit stops it, or if its depth is settled at
the horizon.  The mark of the node limit is always right.  The mark of the
horizon goes by the first argument alone, so a linear-shift recurrence with
large shifts or a high threshold can be complete in spite of it.
-/

namespace Unfolding

variable {view : View} {style : Style} {drawing : Drawing} {budget : DepthBudget}

namespace Unfolded

variable {Key : Type} {outline : Outline Key} {keys : List Key} {growth : Option Growth}
variable {expansion : Expansion} {orientation : Orientation}

theorem isTruncated_of_draw
    (drawn : (ofExpansion budget growth expansion).draw orientation style = .ok drawing) :
    drawing.metadata.isTruncated = (budget.isHorizonBound || expansion.tree.isTruncated) := by
  obtain ⟨same, sameDrawn, truncated⟩ :=
    (ofExpansion budget growth expansion).draw_eq_ok orientation style
  rw [drawn] at sameDrawn
  cases sameDrawn
  rw [truncated, isTruncated_ofExpansion]

theorem isCutShort_of_draw
    (drawn : (ofExpansion budget growth expansion).draw orientation style = .ok drawing)
    (follows : expansion.tree.Follows outline keys) :
    drawing.IsCutShort ↔ outline.IsCutShort keys :=
  Drawing.isCutShort_iff (follows_ofExpansion follows) drawn

theorem isLeaf_iff_isBase_of_draw
    (drawn : (ofExpansion budget growth expansion).draw orientation style = .ok drawing)
    (follows : expansion.tree.Follows outline keys) (ends : outline.EndsAtBases keys)
    (complete : ¬ outline.IsCutShort keys) {node : Node} (shown : node ∈ drawing.nodes) :
    drawing.IsLeaf node ↔ node.isBase = true := by
  constructor
  · intro leaf
    apply Classical.byContradiction
    intro notBase
    apply complete
    apply (isCutShort_of_draw drawn follows).mp
    exact ⟨node, shown, leaf, Bool.eq_false_iff.mpr notBase⟩
  · intro base
    exact Drawing.isLeaf_of_isBase (follows_ofExpansion follows) ends drawn shown base

end Unfolded

namespace DivideConquer

variable {r : DivideConquer}

theorem outcome_of_generate
    (generated : (Recurrence.divideConquer r).generate view style = .ok drawing) :
    ∃ budget expansion, r.depth view.initial view.maxDepth = .ok budget ∧
      r.Outcome view.initial budget.effective expansion ∧
      (Unfolded.ofExpansion budget none expansion).draw view.orientation style = .ok drawing := by
  obtain ⟨budget, expansion, settled, run, drawn⟩ := Recurrence.exists_of_generate generated
  exact ⟨budget, expansion, settled, outcome_of_expand run, drawn⟩

/-- A divide-and-conquer tree that is marked as truncated is cut short. -/
theorem isCutShort_of_isTruncated
    (generated : (Recurrence.divideConquer r).generate view style = .ok drawing)
    (truncated : drawing.metadata.isTruncated = true) : drawing.IsCutShort := by
  obtain ⟨budget, expansion, settled, outcome, drawn⟩ := outcome_of_generate generated
  obtain ⟨valid, -, natural, rfl, above⟩ := depth_eq_ok settled
  obtain ⟨branches, -⟩ := reduction_of_check valid
  cases outcome with
  | cut follows through _ _ =>
      rw [Unfolded.isCutShort_of_draw drawn follows, isCutShort_callsThrough_iff branches]
      exact through _ (Nat.le_refl _)
  | complete follows higher ended within whole _ =>
      rw [Unfolded.isCutShort_of_draw drawn follows, isCutShort_callsThrough_iff branches]
      rw [Unfolded.isTruncated_of_draw drawn, whole, Bool.or_false,
        DepthBudget.isHorizonBound_within_iff, decide_eq_true_iff] at truncated
      obtain ⟨large, generous⟩ := truncated
      rw [DepthBudget.effective_within_of_le generous] at within
      apply isBase_eq_false_of_gt
      rcases Nat.lt_or_eq_of_le within with below | rfl
      · exact above _ below
      · exact large

/-- A divide-and-conquer tree that nothing cuts has its base cases as leaves. -/
theorem isLeaf_iff_isBase
    (generated : (Recurrence.divideConquer r).generate view style = .ok drawing)
    (settled : r.depth view.initial view.maxDepth = .ok budget)
    (generous : ∀ depth, view.maxDepth = some depth → budget.natural ≤ depth.toNat)
    (untruncated : drawing.metadata.isTruncated = false) {node : Node}
    (shown : node ∈ drawing.nodes) : drawing.IsLeaf node ↔ node.isBase = true := by
  obtain ⟨same, expansion, sameSettled, outcome, drawn⟩ := outcome_of_generate generated
  cases settled.symm.trans sameSettled
  obtain ⟨valid, accepted, natural, rfl, -⟩ := depth_eq_ok settled
  obtain ⟨branches, -⟩ := reduction_of_check valid
  change ∀ depth, view.maxDepth = some depth → natural ≤ depth.toNat at generous
  rw [Unfolded.isTruncated_of_draw drawn, Bool.or_eq_false_iff] at untruncated
  obtain ⟨unbound, uncut⟩ := untruncated
  have small : ¬ r.sizeAt view.initial natural > r.baseSize :=
    of_decide_eq_false (DepthBudget.atHorizon_eq_false unbound generous)
  cases outcome with
  | cut follows through truncated _ =>
      rw [uncut] at truncated
      cases truncated
  | complete follows higher ended within whole _ =>
      apply Unfolded.isLeaf_iff_isBase_of_draw drawn follows
        (endsAtBases_callsThrough branches higher) _ shown
      rw [isCutShort_callsThrough_iff branches, Bool.not_eq_false]
      rw [DepthBudget.effective_within_of_le generous] at ended
      rcases ended with rfl | base
      · exact isBase_eq_true_of_not_gt valid accepted small
      · exact base

end DivideConquer

namespace LinearShift

variable {r : LinearShift}

theorem outcome_of_generate
    (generated : (Recurrence.linearShift r).generate view style = .ok drawing) :
    ∃ budget expansion, r.depth view.initial view.maxDepth = .ok budget ∧
      r.Outcome (Number.wholePart view.initial) budget.effective (callLimit style.nodeLimit)
        expansion ∧
      (Unfolded.ofExpansion budget (some (.ofShiftCount r.shifts.length)) expansion).draw
        view.orientation style = .ok drawing := by
  obtain ⟨budget, expansion, settled, run, drawn⟩ := Recurrence.exists_of_generate generated
  exact ⟨budget, expansion, settled, outcome_of_expand run, drawn⟩

/-- A linear-shift tree is marked as truncated if its depth is settled at the
horizon or if there are too many calls. -/
theorem isTruncated_iff
    (generated : (Recurrence.linearShift r).generate view style = .ok drawing)
    (settled : r.depth view.initial view.maxDepth = .ok budget) :
    drawing.metadata.isTruncated = true ↔
      budget.isHorizonBound = true ∨ max 1 (callLimit style.nodeLimit) <
        r.callCount budget.effective (Number.wholePart view.initial) := by
  obtain ⟨same, expansion, sameSettled, outcome, drawn⟩ := outcome_of_generate generated
  cases settled.symm.trans sameSettled
  obtain ⟨valid, -⟩ := depth_eq_ok_iff.mp settled
  rw [Unfolded.isTruncated_of_draw drawn, Bool.or_eq_true, outcome.isTruncated_eq_isSome_stop,
    Option.isSome_iff_ne_none, Ne, outcome.stop_eq_none_iff (shifts_ne_nil valid), Nat.not_le]

/-- From a first argument beyond the horizon, all calls end at the horizon or
above it: every shift gets to the base cases by then, and neither a request nor
the node limit is in the way. -/
structure CompletesAtHorizon (r : LinearShift) (view : View) (nodeLimit : UInt64) : Prop where
  beyond : depthHorizon < Number.wholePart view.initial
  unrequested : ∀ depth, view.maxDepth = some depth → depthHorizon ≤ depth.toNat
  reached : ∀ shift ∈ r.shifts,
    Number.wholePart view.initial - depthHorizon * shift.toNat ≤ r.baseArgument
  fits : r.callCount depthHorizon (Number.wholePart view.initial) ≤ max 1 (callLimit nodeLimit)

theorem isTruncated_of_completesAtHorizon
    (generated : (Recurrence.linearShift r).generate view style = .ok drawing)
    (completes : r.CompletesAtHorizon view style.nodeLimit) :
    drawing.metadata.isTruncated = true ∧ ¬ drawing.IsCutShort := by
  obtain ⟨budget, expansion, settled, outcome, drawn⟩ := outcome_of_generate generated
  obtain ⟨valid, -, rfl⟩ := depth_eq_ok_iff.mp settled
  have nonempty := shifts_ne_nil valid
  have natural : min (Number.wholePart view.initial) depthHorizon = depthHorizon :=
    Nat.min_eq_right (Nat.le_of_lt completes.beyond)
  constructor
  · rw [isTruncated_iff generated settled, DepthBudget.isHorizonBound_within_iff,
      decide_eq_true_iff, natural]
    exact .inl ⟨completes.beyond, completes.unrequested⟩
  · rw [natural, DepthBudget.effective_within_of_le completes.unrequested] at outcome
    have unstopped := (outcome.stop_eq_none_iff nonempty).mpr completes.fits
    cases outcome with
    | cut sweep follows truncated stopped shallow full => exact absurd unstopped stopped
    | complete sweep follows whole _ within =>
        rw [Unfolded.isCutShort_of_draw drawn follows, isCutShort_iff_of_finished nonempty sweep]
        rintro ⟨shift, member, above⟩
        exact Nat.not_le_of_lt above (completes.reached shift member)

theorem isCutShort_of_not_completesAtHorizon
    (generated : (Recurrence.linearShift r).generate view style = .ok drawing)
    (goesOn : ¬ r.CompletesAtHorizon view style.nodeLimit)
    (truncated : drawing.metadata.isTruncated = true) : drawing.IsCutShort := by
  obtain ⟨budget, expansion, settled, outcome, drawn⟩ := outcome_of_generate generated
  obtain ⟨valid, -, rfl⟩ := depth_eq_ok_iff.mp settled
  have nonempty := shifts_ne_nil valid
  cases outcome with
  | cut sweep follows _ _ _ _ =>
      exact (Unfolded.isCutShort_of_draw drawn follows).mpr (isCutShort_of_waiting nonempty sweep)
  | complete sweep follows whole unstopped within =>
      rw [Unfolded.isTruncated_of_draw drawn, whole, Bool.or_false,
        DepthBudget.isHorizonBound_within_iff, decide_eq_true_iff] at truncated
      obtain ⟨beyond, generous⟩ := truncated
      have natural : min (Number.wholePart view.initial) depthHorizon = depthHorizon :=
        Nat.min_eq_right (Nat.le_of_lt beyond)
      rw [DepthBudget.effective_within_of_le generous, natural] at sweep
      rw [natural] at generous
      rw [Unfolded.isCutShort_of_draw drawn follows, isCutShort_iff_of_finished nonempty sweep]
      apply Classical.byContradiction
      intro notAbove
      apply goesOn
      refine ⟨beyond, generous, ?_, sweep.length_eq_callCount ▸ within⟩
      intro shift member
      apply Nat.le_of_not_lt
      intro above
      exact notAbove ⟨shift, member, above⟩

/-- A linear-shift tree that nothing cuts has its base cases as leaves.  Every
shift takes away at least one, so no call is left at the full depth. -/
theorem isLeaf_iff_isBase
    (generated : (Recurrence.linearShift r).generate view style = .ok drawing)
    (settled : r.depth view.initial view.maxDepth = .ok budget)
    (generous : ∀ depth, view.maxDepth = some depth → budget.natural ≤ depth.toNat)
    (untruncated : drawing.metadata.isTruncated = false) {node : Node}
    (shown : node ∈ drawing.nodes) : drawing.IsLeaf node ↔ node.isBase = true := by
  obtain ⟨same, expansion, sameSettled, outcome, drawn⟩ := outcome_of_generate generated
  cases settled.symm.trans sameSettled
  obtain ⟨valid, -, rfl⟩ := depth_eq_ok_iff.mp settled
  have nonempty := shifts_ne_nil valid
  change ∀ depth, view.maxDepth = some depth →
    min (Number.wholePart view.initial) depthHorizon ≤ depth.toNat at generous
  rw [Unfolded.isTruncated_of_draw drawn, Bool.or_eq_false_iff] at untruncated
  obtain ⟨unbound, uncut⟩ := untruncated
  have near : Number.wholePart view.initial ≤ depthHorizon := by
    apply Nat.le_of_not_lt
    exact of_decide_eq_false (DepthBudget.atHorizon_eq_false unbound generous)
  cases outcome with
  | cut sweep follows truncated _ _ _ =>
      rw [uncut] at truncated
      cases truncated
  | complete sweep follows whole _ within =>
      apply Unfolded.isLeaf_iff_isBase_of_draw drawn follows (endsAtBases nonempty sweep) _ shown
      rw [isCutShort_iff_of_finished nonempty sweep, DepthBudget.effective_within_of_le generous,
        Nat.min_eq_left near]
      rintro ⟨shift, member, above⟩
      have step := Nat.mul_le_mul_left (Number.wholePart view.initial) (shift_pos valid member)
      omega

end LinearShift

namespace Recurrence

variable {r : Recurrence}

/-- The calls of a recurrence end at the horizon or above it, where its depth is
settled.  The sizes of a divide-and-conquer recurrence are followed down to the
horizon, so there it does not happen. -/
def CompletesAtHorizon : Recurrence → View → UInt64 → Prop
  | .divideConquer _, _, _ => False
  | .linearShift r, view, nodeLimit => r.CompletesAtHorizon view nodeLimit

/-- A mark of truncation is right unless the calls end by the horizon. -/
theorem truncation_genuine_iff (generated : r.generate view style = .ok drawing) :
    (drawing.metadata.isTruncated = true → drawing.IsCutShort) ↔
      ¬ r.CompletesAtHorizon view style.nodeLimit := by
  cases r with
  | divideConquer r =>
      simp only [CompletesAtHorizon, not_false_eq_true, iff_true]
      exact DivideConquer.isCutShort_of_isTruncated generated
  | linearShift r =>
      constructor
      · intro genuine completes
        obtain ⟨truncated, complete⟩ :=
          LinearShift.isTruncated_of_completesAtHorizon generated completes
        exact complete (genuine truncated)
      · exact LinearShift.isCutShort_of_not_completesAtHorizon generated

/-- Unit shifts do lead below the horizon. -/
theorem truncation_genuine_unit_shift :
    ∃ drawing, (linearShift (.ofShifts [1] 0)).generate { initial := 70000 } .standard =
        .ok drawing ∧
      drawing.metadata.isTruncated = true ∧ drawing.IsCutShort := by
  have settled : (LinearShift.ofShifts [1] 0).depth 70000 none =
      .ok (.within depthHorizon true none) := rfl
  obtain ⟨drawing, generated⟩ :
      ∃ drawing, (linearShift (.ofShifts [1] 0)).generate { initial := 70000 } .standard =
        .ok drawing := generate_eq_ok settled
  have truncated := (LinearShift.isTruncated_iff generated settled).mpr (.inl rfl)
  refine ⟨drawing, generated, truncated, (truncation_genuine_iff generated).mpr ?_ truncated⟩
  intro completes
  exact absurd (completes.reached 1 (by decide)) (by decide)

/-- One large shift ends at a base case, and the tree is marked nevertheless. -/
theorem truncated_yet_complete :
    ∃ drawing, (linearShift (.ofShifts [100000] 1)).generate { initial := 70000 } .standard =
        .ok drawing ∧
      drawing.metadata.isTruncated = true ∧ ¬ drawing.IsCutShort := by
  have settled : (LinearShift.ofShifts [100000] 1).depth 70000 none =
      .ok (.within depthHorizon true none) := rfl
  obtain ⟨drawing, generated⟩ :
      ∃ drawing, (linearShift (.ofShifts [100000] 1)).generate { initial := 70000 } .standard =
        .ok drawing := generate_eq_ok settled
  refine ⟨drawing, generated, LinearShift.isTruncated_of_completesAtHorizon generated ?_⟩
  refine ⟨by decide, by simp, ?_, ?_⟩
  · intro shift member
    rw [List.mem_singleton.mp member]
    decide
  -- The depth is too large for plain evaluation, but only two calls are counted.
  · decide +kernel

/-- Without truncation the leaves are the base cases. -/
theorem leaf_iff_base_of_untruncated (generated : r.generate view style = .ok drawing)
    (settled : r.depth view.initial view.maxDepth = .ok budget)
    (generous : ∀ depth, view.maxDepth = some depth → budget.natural ≤ depth.toNat)
    (untruncated : drawing.metadata.isTruncated = false) :
    ∀ node ∈ drawing.nodes, drawing.IsLeaf node ↔ node.isBase = true := by
  intro node shown
  cases r with
  | divideConquer r =>
      exact DivideConquer.isLeaf_iff_isBase generated settled generous untruncated shown
  | linearShift r =>
      exact LinearShift.isLeaf_iff_isBase generated settled generous untruncated shown

theorem leaf_iff_base_fibonacci :
    ∃ drawing, (linearShift (.ofShifts [1, 2] 1)).generate { initial := 6.5, maxDepth := some 6 }
        .standard = .ok drawing ∧
      drawing.metadata.isTruncated = false ∧
      ∀ node ∈ drawing.nodes, drawing.IsLeaf node ↔ node.isBase = true := by
  have settled : (LinearShift.ofShifts [1, 2] 1).depth 6.5 (some 6) =
      .ok (.within 6 false (some 6)) := rfl
  obtain ⟨drawing, generated⟩ :
      ∃ drawing, (linearShift (.ofShifts [1, 2] 1)).generate
        { initial := 6.5, maxDepth := some 6 } .standard = .ok drawing := generate_eq_ok settled
  have untruncated : drawing.metadata.isTruncated = false := by
    rw [Bool.eq_false_iff, Ne, LinearShift.isTruncated_iff generated settled]
    decide
  refine ⟨drawing, generated, untruncated,
    leaf_iff_base_of_untruncated generated settled ?_ untruncated⟩
  rintro depth ⟨⟩
  decide

end Recurrence

end Unfolding
