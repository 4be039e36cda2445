import Unfolding.Proofs.Expansion.Limit
import Mathlib.Data.List.Perm.Basic

/-!
The order of the shifts.

Reordering the shifts of a recurrence permutes the calls of each level, and
nothing else.  Calls are listed level by level, so the levels of a listing of a
given length are known from the numbers of calls on the levels of the whole
tree.  A node limit stops a listing by its length alone.
-/

namespace Unfolding

namespace LinearShift

variable {r other : LinearShift} {first depth limit : Nat}

/-- The same recurrence with its shifts in another order.  The formulas of the
coefficients and of the extra term do not matter. -/
structure Reorders (r other : LinearShift) : Prop where
  shifts : r.shifts.Perm other.shifts
  coefficients : r.coefficients.length = other.coefficients.length
  threshold : r.threshold = other.threshold

theorem check_eq_ok_iff :
    r.check = .ok () ↔ r.shifts ≠ [] ∧ (∀ shift ∈ r.shifts, shift ≠ 0) ∧
      r.coefficients.length = r.shifts.length := by
  unfold check
  by_cases empty : r.shifts = []
  · simp [empty]
  · cases zero : r.shifts.findIdx? (· == 0) with
    | none =>
        have nonzero : ∀ shift ∈ r.shifts, shift ≠ 0 := by
          simpa using List.findIdx?_eq_none_iff.mp zero
        by_cases counted : r.coefficients.length = r.shifts.length
        · simp [empty, counted, and_iff_right nonzero]
        · simp [empty, counted]
    | some position =>
        obtain ⟨inside, isZero, -⟩ := List.findIdx?_eq_some_iff_getElem.mp zero
        have member : 0 ∈ r.shifts := beq_iff_eq.mp isZero ▸ List.getElem_mem inside
        have refused : ¬ ∀ shift ∈ r.shifts, shift ≠ 0 := fun nonzero => nonzero 0 member rfl
        simp [empty, refused]

namespace Reorders

theorem length_eq (reorders : r.Reorders other) : r.shifts.length = other.shifts.length :=
  reorders.shifts.length_eq

theorem isBase_eq (reorders : r.Reorders other) : r.isBase = other.isBase := by
  funext argument
  rw [isBase, isBase, baseArgument, baseArgument, reorders.threshold]

theorem check (reorders : r.Reorders other) (valid : r.check = .ok ()) :
    other.check = .ok () := by
  rw [check_eq_ok_iff] at valid ⊢
  obtain ⟨nonempty, nonzero, counted⟩ := valid
  refine ⟨?_, ?_, ?_⟩
  · rintro none
    exact nonempty (List.perm_nil.mp (none ▸ reorders.shifts))
  · intro shift member
    exact nonzero shift (reorders.shifts.mem_iff.mpr member)
  · rw [← reorders.coefficients, ← reorders.length_eq, counted]

end Reorders

/-! ### All calls -/

/-- The level and the argument of the call at a path. -/
def standing (r : LinearShift) (first : Nat) (path : CallPath) : Nat × Nat :=
  (path.length, r.argumentAt first path)

theorem flatMap_shiftAt_range {α : Type} (r : LinearShift) (use : Nat → List α) :
    (List.range r.shifts.length).flatMap (fun i => use (r.shiftAt i)) =
      r.shifts.flatMap fun shift => use shift.toNat := by
  rw [List.flatMap_def, List.flatMap_def, map_shiftAt_range]

/-- Below a call stand the calls of its shifts, one level further down. -/
theorem map_standing_callPaths_succ (above : r.isBase first = false) :
    (r.callPaths (depth + 1) first).map (r.standing first) =
      (0, first) :: r.shifts.flatMap fun shift =>
        ((r.callPaths depth (first - shift.toNat)).map (r.standing (first - shift.toNat))).map
          (Prod.map Nat.succ id) := by
  rw [callPaths, if_neg (by simp [above]), List.map_cons, List.map_flatMap,
    ← r.flatMap_shiftAt_range fun shift => ((r.callPaths depth (first - shift)).map
      (r.standing (first - shift))).map (Prod.map Nat.succ id)]
  simp only [List.map_map]
  rfl

/-- Reordered shifts lead to as many calls with each argument on each level. -/
theorem Reorders.standing_perm (reorders : r.Reorders other) (depth first : Nat) :
    ((r.callPaths depth first).map (r.standing first)).Perm
      ((other.callPaths depth first).map (other.standing first)) := by
  induction depth generalizing first with
  | zero => exact List.Perm.refl _
  | succ depth inductionHypothesis =>
      cases base : r.isBase first with
      | true =>
          have otherBase : other.isBase first = true := reorders.isBase_eq ▸ base
          rw [callPaths, callPaths, if_pos base, if_pos otherBase]
          exact List.Perm.refl _
      | false =>
          have otherAbove : other.isBase first = false := reorders.isBase_eq ▸ base
          rw [map_standing_callPaths_succ base, map_standing_callPaths_succ otherAbove]
          apply List.Perm.cons
          apply reorders.shifts.flatMap
          intro shift _
          exact (inductionHypothesis _).map _

theorem Reorders.callCount_eq (reorders : r.Reorders other) :
    r.callCount depth first = other.callCount depth first := by
  have lengths := (reorders.standing_perm depth first).length_eq
  rwa [List.length_map, List.length_map, length_callPaths, length_callPaths] at lengths

/-! ### Listings -/

namespace Sweep

/-- A listing is the beginning of a whole one. -/
theorem exists_finished (nonempty : r.shifts ≠ []) {listed done waiting : List CallPath}
    (sweep : r.Sweep first depth listed done waiting) :
    ∃ more finished, r.Sweep first depth (listed ++ more) finished [] := by
  match waiting with
  | [] => exact ⟨[], done, by rwa [List.append_nil]⟩
  | path :: rest =>
      by_cases deep : depth ≤ path.length
      · exact exists_finished nonempty (sweep.skip deep)
      · have shallow := Nat.lt_of_not_le deep
        obtain ⟨more, finished, whole⟩ := exists_finished nonempty (sweep.expand shallow)
        rw [List.append_assoc] at whole
        exact ⟨_, finished, whole⟩
termination_by (r.callCount depth first - listed.length, waiting.length)
decreasing_by
  · exact Prod.Lex.right _ (Nat.lt_succ_self _)
  · apply Prod.Lex.left
    have further := sweep.length_add_le_callCount shallow
    have shifts := List.length_pos_iff.mpr nonempty
    simp only [List.length_append, CallPath.extensions, List.length_map, List.length_range]
    omega

variable {listed done waiting : List CallPath}

theorem perm_callPaths (sweep : r.Sweep first depth listed done []) :
    listed.Perm (r.callPaths depth first) := by
  rw [List.perm_ext_iff_of_nodup sweep.nodup nodup_callPaths]
  intro path
  rw [sweep.mem_iff, mem_callPaths_iff]

theorem pairwise_length (sweep : r.Sweep first depth listed done waiting) :
    (listed.map List.length).Pairwise (· ≤ ·) := by
  rw [List.pairwise_map]
  apply sweep.ordered.imp
  intro path later earlier
  rcases List.shortlex_def.mp earlier with shorter | ⟨level, -⟩
  · exact Nat.le_of_lt shorter
  · exact Nat.le_of_eq level

/-- Every turn lists one call for each shift. -/
theorem exists_turns (sweep : r.Sweep first depth listed done waiting) :
    ∃ turns, listed.length = 1 + turns * r.shifts.length := by
  refine ⟨(done.filter fun path => path.length < depth).length, ?_⟩
  rw [sweep.listed_eq, List.length_cons, List.length_flatMap]
  simp [CallPath.extensions, Nat.add_comm]

/-- The levels of a listing depend on its length only. -/
theorem map_length_eq (reorders : r.Reorders other) (nonempty : r.shifts ≠ [])
    {otherListed otherDone otherWaiting : List CallPath}
    (sweep : r.Sweep first depth listed done waiting)
    (otherSweep : other.Sweep first depth otherListed otherDone otherWaiting)
    (sized : listed.length = otherListed.length) :
    listed.map List.length = otherListed.map List.length := by
  have otherNonempty : other.shifts ≠ [] := by
    rintro none
    exact nonempty (List.perm_nil.mp (none ▸ reorders.shifts))
  obtain ⟨more, finished, whole⟩ := sweep.exists_finished nonempty
  obtain ⟨otherMore, otherFinished, otherWhole⟩ := otherSweep.exists_finished otherNonempty
  -- both wholes have the same numbers of calls on each level, and list them in order
  have levels : ((listed ++ more).map List.length).Perm
      ((otherListed ++ otherMore).map List.length) := by
    have standings := (reorders.standing_perm depth first).map Prod.fst
    rw [List.map_map, List.map_map] at standings
    exact ((whole.perm_callPaths.map _).trans standings).trans
      (otherWhole.perm_callPaths.map _).symm
  have same := List.Perm.eq_of_pairwise (fun _ _ _ _ => Nat.le_antisymm) whole.pairwise_length
    otherWhole.pairwise_length levels
  rw [List.map_append, List.map_append] at same
  exact (List.append_inj same (by simpa using sized)).1

end Sweep

/-! ### Expansions -/

section

variable {initial : Float} {nodeLimit : UInt64} {expansion reordered : Expansion}

namespace Reorders

theorem stop_eq_none_iff (reorders : r.Reorders other) (valid : r.check = .ok ())
    (run : r.expand initial depth nodeLimit = .ok expansion)
    (otherRun : other.expand initial depth nodeLimit = .ok reordered) :
    reordered.stop = none ↔ expansion.stop = none := by
  rw [(r.outcome_of_expand run).stop_eq_none_iff (shifts_ne_nil valid),
    (other.outcome_of_expand otherRun).stop_eq_none_iff (shifts_ne_nil (reorders.check valid)),
    reorders.callCount_eq]

/-- A limit leaves room for as many turns, whatever the order of the shifts. -/
theorem size_eq (reorders : r.Reorders other) (valid : r.check = .ok ())
    (run : r.expand initial depth nodeLimit = .ok expansion)
    (otherRun : other.expand initial depth nodeLimit = .ok reordered) :
    expansion.tree.size = reordered.tree.size := by
  obtain ⟨listed, done, waiting, sweep, follows, whole, full⟩ :=
    (outcome_of_expand run).exists_sweep
  obtain ⟨otherListed, otherDone, otherWaiting, otherSweep, otherFollows, otherWhole, otherFull⟩ :=
    (outcome_of_expand otherRun).exists_sweep
  have stops := reorders.stop_eq_none_iff valid run otherRun
  rw [follows.size, otherFollows.size]
  by_cases stopped : expansion.stop = none
  · obtain rfl := whole stopped
    obtain rfl := otherWhole (stops.mpr stopped)
    rw [sweep.length_eq_callCount, otherSweep.length_eq_callCount, reorders.callCount_eq]
  · have within := size_le_callLimit run
    have otherWithin := size_le_callLimit otherRun
    have beyond := full stopped
    have otherBeyond := otherFull fun none => stopped (stops.mp none)
    obtain ⟨turns, counted⟩ := sweep.exists_turns
    obtain ⟨otherTurns, otherCounted⟩ := otherSweep.exists_turns
    rw [follows.size, counted] at within
    rw [otherFollows.size, otherCounted, ← reorders.length_eq] at otherWithin
    rw [counted] at beyond
    rw [otherCounted, ← reorders.length_eq] at otherBeyond
    rw [counted, otherCounted, ← reorders.length_eq]
    have shifts := List.length_pos_iff.mpr (shifts_ne_nil valid)
    rcases Nat.lt_trichotomy turns otherTurns with fewer | same | more
    · have further : (turns + 1) * r.shifts.length ≤ otherTurns * r.shifts.length :=
        Nat.mul_le_mul_right _ fewer
      rw [Nat.add_mul] at further
      omega
    · rw [same]
    · have further : (otherTurns + 1) * r.shifts.length ≤ turns * r.shifts.length :=
        Nat.mul_le_mul_right _ more
      rw [Nat.add_mul] at further
      omega

theorem levels_eq (reorders : r.Reorders other) (valid : r.check = .ok ())
    (run : r.expand initial depth nodeLimit = .ok expansion)
    (otherRun : other.expand initial depth nodeLimit = .ok reordered) :
    expansion.tree.calls.toList.map Call.level = reordered.tree.calls.toList.map Call.level := by
  obtain ⟨listed, done, waiting, sweep, follows, -⟩ :=
    (outcome_of_expand run).exists_sweep
  obtain ⟨otherListed, otherDone, otherWaiting, otherSweep, otherFollows, -⟩ :=
    (outcome_of_expand otherRun).exists_sweep
  have sized := reorders.size_eq valid run otherRun
  rw [follows.size, otherFollows.size] at sized
  have levels : expansion.tree.calls.toList.map Call.level = listed.map List.length :=
    follows.map_calls fun described => described.level
  have otherLevels : reordered.tree.calls.toList.map Call.level = otherListed.map List.length :=
    otherFollows.map_calls fun described => described.level
  rw [levels, otherLevels]
  exact sweep.map_length_eq reorders (shifts_ne_nil valid) otherSweep sized

/-- The stop is at the end of the tree, so it tells no more than the levels do. -/
theorem stop_eq (reorders : r.Reorders other) (valid : r.check = .ok ())
    (run : r.expand initial depth nodeLimit = .ok expansion)
    (otherRun : other.expand initial depth nodeLimit = .ok reordered) :
    reordered.stop = expansion.stop := by
  have stops := reorders.stop_eq_none_iff valid run otherRun
  have tells := tellsStop_of_expand run
  have otherTells := tellsStop_of_expand otherRun
  have sized := reorders.size_eq valid run otherRun
  have levels := CallTree.levelCount_eq_of_levels (reorders.levels_eq valid run otherRun)
  cases stopped : expansion.stop with
  | none => exact stops.mpr stopped
  | some stop =>
      obtain ⟨otherStop, otherStopped⟩ : ∃ otherStop, reordered.stop = some otherStop :=
        Option.ne_none_iff_exists'.mp fun none => by simp [stops.mp none] at stopped
      have emitted : otherStop.emitted = stop.emitted := by
        rw [tells.emitted stopped, otherTells.emitted otherStopped, sized]
      have level : otherStop.level = stop.level := by
        have deepest := tells.deepest stopped
        have otherDeepest := otherTells.deepest otherStopped
        omega
      rw [otherStopped]
      exact congrArg some (congrArg₂ LimitStop.mk emitted level)

end Reorders

end

end LinearShift

end Unfolding
