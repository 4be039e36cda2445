import Unfolding.Proofs.Expansion.Subtraction
import Unfolding.Proofs.Number.Double
import Mathlib.Data.List.Infix

/-!
The tree of a linear-shift recurrence against the recurrence itself.

Read as a definition, the recurrence subtracts shifts from an integer, stays at
zero once it would fall below, and stops at the threshold, which counts as zero
if it is negative.  The tree holds exactly the calls that this definition makes.
-/

namespace Unfolding

namespace LinearShift

variable {r : LinearShift}

/-- The argument at a path: each shift on the way is subtracted, down to zero. -/
def exactArgument (r : LinearShift) (first : Int) (path : CallPath) : Int :=
  path.foldl (fun argument i => max (argument - (r.shifts.getD i 0).toNat) 0) first

/-- The definition makes the call at a path within a depth. -/
structure Calls (r : LinearShift) (first : Int) (depth : Nat) (path : CallPath) : Prop where
  within : path.length ≤ depth
  positions : ∀ i ∈ path, i < r.shifts.length
  above : ∀ start, start <+: path → start ≠ path →
    max r.threshold.toInt 0 < r.exactArgument first start

/-- A call is the one at a path, where the slots of the tree hold `paths`. -/
structure IsCallAt (r : LinearShift) (first : Int) (paths : List CallPath) (path : CallPath)
    (call : Call) : Prop where
  id : call.id = path.foldl (fun id i => id ++ "." ++ toString i) "n"
  argument : call.argument = Float.ofInt (r.exactArgument first path)
  level : call.level = path.length
  isBase : call.isBase = true ↔ r.exactArgument first path ≤ max r.threshold.toInt 0
  parent : ∀ slot, call.parent = some slot ↔ path ≠ [] ∧ paths[slot]? = some path.dropLast
  children : ∀ j slot, call.children[j]? = some slot ↔ paths[slot]? = some (path ++ [j])

theorem exactArgument_natCast (first : Nat) (path : CallPath) :
    r.exactArgument first path = r.argumentAt first path := by
  induction path using List.reverseRecOn with
  | nil => rfl
  | append_singleton path i inductionHypothesis =>
      have shift : r.shiftAt i = (r.shifts.getD i 0).toNat := rfl
      rw [argumentAt_concat, exactArgument, List.foldl_concat, ← exactArgument,
        inductionHypothesis, shift]
      omega

theorem natCast_baseArgument : (r.baseArgument : Int) = max r.threshold.toInt 0 :=
  Int.ofNat_toNat _

theorem baseArgument_lt_iff {first : Nat} {path : CallPath} :
    r.baseArgument < r.argumentAt first path ↔
      max r.threshold.toInt 0 < r.exactArgument first path := by
  rw [← natCast_baseArgument, exactArgument_natCast, Int.ofNat_lt]

theorem isMade_iff_calls {first depth : Nat} {path : CallPath} :
    r.IsMade first depth path ↔ r.Calls first depth path := by
  constructor
  · intro made
    refine ⟨made.within, made.positions, ?_⟩
    intro start shorter proper
    exact baseArgument_lt_iff.mp (made.above start shorter proper)
  · intro calls
    refine ⟨calls.within, calls.positions, ?_⟩
    intro start shorter proper
    exact baseArgument_lt_iff.mpr (calls.above start shorter proper)

theorem isCallAt_of_describes {first depth : Nat} {paths : List CallPath} {path : CallPath}
    {call : Call} (made : ∀ path ∈ paths, r.IsMade first depth path)
    (described : (r.outline first).Describes paths path call) (member : path ∈ paths) :
    r.IsCallAt first paths path call where
  id := described.id
  argument := by
    rw [exactArgument_natCast]
    exact described.argument
  level := described.level
  isBase := by
    rw [described.isBase, ← Int.not_lt, ← baseArgument_lt_iff, Nat.not_lt]
    exact decide_eq_true_iff
  parent := by
    intro slot
    rw [described.parent]
    constructor
    · rintro ⟨caller, i, -, found, rfl⟩
      exact ⟨by simp [outline], by simpa [outline] using found⟩
    · rintro ⟨nonempty, found⟩
      have last := List.dropLast_concat_getLast nonempty
      exact ⟨path.dropLast, path.getLast nonempty,
        (made path member).positions _ (List.getLast_mem nonempty), found, last⟩
  children := by
    intro j slot
    rw [described.children]
    constructor
    · rintro ⟨-, found⟩
      exact found
    · intro found
      have extended := made _ (List.mem_of_getElem? found)
      exact ⟨extended.positions j (by simp), found⟩

/-- Unfolding refines the recursive definition: unless the node limit is in the
way, the slots hold the calls of the definition, level by level. -/
theorem expand_refines_recursion (r : LinearShift) (initial : Float) (depth : Nat)
    (nodeLimit : UInt64) (valid : r.check = .ok ()) (accepted : checkInitialSize initial = .ok ()) :
    ∃ expansion, r.expand initial depth nodeLimit = .ok expansion ∧
      (expansion.stop = none ↔
        r.callCount depth (Number.wholePart initial) ≤ max 1 (callLimit nodeLimit)) ∧
      (expansion.stop = none → ∃ paths : List CallPath,
        (∀ path, path ∈ paths ↔ r.Calls initial.toModel.toInt64.toInt depth path) ∧
        paths.Pairwise (List.Shortlex (· < ·)) ∧
        expansion.tree.calls.size = paths.length ∧
        ∀ (slot : Nat) (path : CallPath), paths[slot]? = some path →
          ∃ call, expansion.tree.calls[slot]? = some call ∧
            r.IsCallAt initial.toModel.toInt64.toInt paths path call) := by
  obtain ⟨expansion, run, outcome⟩ := r.expand_outcome initial depth nodeLimit
  refine ⟨expansion, run, outcome.stop_eq_none_iff (shifts_ne_nil valid), ?_⟩
  intro unstopped
  rw [← Number.wholePart_eq_toInt64 accepted]
  cases outcome with
  | cut sweep follows truncated stopped shallow full => exact absurd unstopped stopped
  | @complete paths done sweep follows whole _ within =>
      refine ⟨paths, ?_, sweep.ordered, follows.size, ?_⟩
      · intro path
        rw [sweep.mem_iff, isMade_iff_calls]
      · intro slot path place
        obtain ⟨call, found, described⟩ := follows.call place
        exact ⟨call, found, isCallAt_of_describes (fun _ => sweep.isMade_of_mem) described
          (List.mem_of_getElem? place)⟩

theorem expand_refines_recursion_clamped :
    (ofShifts [2, 3, 2] (-1)).check = .ok () ∧ checkInitialSize 4.75 = .ok () ∧
      ∃ expansion, (ofShifts [2, 3, 2] (-1)).expand 4.75 3 100 = .ok expansion ∧
        ∃ (slot : Nat) (call : Call), expansion.tree.calls[slot]? = some call ∧
          call.id = "n.0.1" ∧ call.argument = 0 ∧ call.isBase = true := by
  have valid : (ofShifts [2, 3, 2] (-1)).check = .ok () := rfl
  have accepted : checkInitialSize 4.75 = .ok () := rfl
  obtain ⟨expansion, run, fits, slots⟩ :=
    expand_refines_recursion (ofShifts [2, 3, 2] (-1)) 4.75 3 100 valid accepted
  refine ⟨valid, accepted, expansion, run, ?_⟩
  have first : (4.75 : Float).toModel.toInt64.toInt = 4 := rfl
  obtain ⟨paths, members, -, -, calls⟩ := slots (fits.mpr (by decide))
  have made : (ofShifts [2, 3, 2] (-1)).Calls 4 3 [0, 1] := by
    refine ⟨by decide, by decide, ?_⟩
    intro start shorter proper
    rw [← List.mem_inits] at shorter
    revert start
    decide
  obtain ⟨slot, place⟩ := List.getElem?_of_mem ((members [0, 1]).mpr (first ▸ made))
  obtain ⟨call, found, isCall⟩ := calls slot [0, 1] place
  rw [first] at isCall
  exact ⟨slot, call, found, isCall.id, isCall.argument, isCall.isBase.mpr (by decide)⟩

end LinearShift

end Unfolding
