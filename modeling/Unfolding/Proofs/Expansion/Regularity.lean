import Unfolding.Proofs.Expansion.Stop
import Mathlib.Algebra.BigOperators.Intervals

/-!
The shape of a divide-and-conquer tree.

Rows stand one behind the other, and each is as wide as a power of the branching
factor.  So a level and an index tell everything about a call: its slot, its size,
its caller and the calls that it makes.
-/

namespace Unfolding

namespace DivideConquer

variable {r : DivideConquer} {initial : Float} {last level index : Nat}

/-- The slot of the call with an index on a level, behind all rows above. -/
def slotAt (r : DivideConquer) (level index : Nat) : Nat :=
  (∑ above ∈ Finset.range level, r.branching.toNat ^ above) + index

/-- The call with an index on a level, in a tree whose deepest level is `last`. -/
def callAt (r : DivideConquer) (initial : Float) (last level index : Nat) : Call where
  id := callId level index
  argument := r.sizeAt initial level
  level
  isBase := r.isBase (r.sizeAt initial level)
  parent := if level = 0 then none else some (r.slotAt (level - 1) (index / r.branching.toNat))
  children :=
    if level < last then
      ((List.range r.branching.toNat).map fun i =>
        r.slotAt (level + 1) (r.branching.toNat * index + i)).toArray
    else #[]

/-- All rows down to level `last` are full, and only the last one can hold base
cases. -/
structure IsRegular (r : DivideConquer) (initial : Float) (last : Nat) (tree : CallTree) :
    Prop where
  levelCount : tree.levelCount = last + 1
  widths : tree.rowWidths.toList =
    (List.range (last + 1)).map fun level => r.branching.toNat ^ level
  size : tree.size = ∑ level ∈ Finset.range (last + 1), r.branching.toNat ^ level
  calls : ∀ level ≤ last, ∀ index < r.branching.toNat ^ level,
    tree.calls[r.slotAt level index]? = some (r.callAt initial last level index)
  above : ∀ call ∈ tree.calls, call.level < last → call.isBase = false

/-! ### Where calls stand -/

theorem widthAt_eq_pow (r : DivideConquer) (level : Nat) :
    r.widthAt level = r.branching.toNat ^ level := by
  induction level with
  | zero => rfl
  | succ level inductionHypothesis => rw [widthAt, inductionHypothesis, Nat.pow_succ]

theorem slotAt_succ (r : DivideConquer) (level index : Nat) :
    r.slotAt (level + 1) index = r.slotAt level (r.branching.toNat ^ level) + index := by
  rw [slotAt, slotAt, Finset.sum_range_succ]

theorem length_callsThrough (r : DivideConquer) (last : Nat) :
    (r.callsThrough last).length = r.slotAt (last + 1) 0 := by
  induction last with
  | zero => rfl
  | succ last inductionHypothesis =>
      rw [callsThrough, List.length_append, inductionHypothesis, rowCalls, List.length_map,
        List.length_range, widthAt_eq_pow, slotAt_succ r (last + 1)]
      rfl

theorem getElem?_callsThrough (within : level ≤ last) (inside : index < r.branching.toNat ^ level) :
    (r.callsThrough last)[r.slotAt level index]? = some (level, index) := by
  induction last with
  | zero =>
      obtain rfl := Nat.le_zero.mp within
      obtain rfl := Nat.lt_one_iff.mp inside
      rfl
  | succ last inductionHypothesis =>
      rcases Nat.le_succ_iff.mp within with above | rfl
      · have place := inductionHypothesis above
        obtain ⟨early, -⟩ := List.getElem?_eq_some_iff.mp place
        rw [callsThrough, List.getElem?_append_left early, place]
      · have start : r.slotAt (last + 1) index = (r.callsThrough last).length + index := by
          rw [length_callsThrough]
          rfl
        rw [callsThrough, start, List.getElem?_append_right (Nat.le_add_right _ _),
          Nat.add_sub_cancel_left, rowCalls, widthAt_eq_pow, List.getElem?_map,
          List.getElem?_range inside]
        rfl

theorem getElem?_callsThrough_iff (distinct : (r.callsThrough last).Nodup) {slot : Nat} :
    (r.callsThrough last)[slot]? = some (level, index) ↔
      level ≤ last ∧ index < r.branching.toNat ^ level ∧ slot = r.slotAt level index := by
  constructor
  · intro place
    obtain ⟨within, inside⟩ := mem_callsThrough_iff.mp (List.mem_of_getElem? place)
    rw [widthAt_eq_pow] at inside
    have same := place.trans (getElem?_callsThrough within inside).symm
    obtain ⟨early, -⟩ := List.getElem?_eq_some_iff.mp place
    exact ⟨within, inside, (List.getElem?_inj early distinct).mp same⟩
  · rintro ⟨within, inside, rfl⟩
    exact getElem?_callsThrough within inside

/-! ### What a call is -/

section

variable {call : Call}

/-- The caller has the index of the call, divided by the branching factor. -/
theorem parent_eq (distinct : (r.callsThrough last).Nodup)
    (described : (r.outline initial).Describes (r.callsThrough last) (level, index) call)
    (within : level ≤ last) (inside : index < r.branching.toNat ^ level) :
    call.parent = (r.callAt initial last level index).parent := by
  apply Option.ext
  intro slot
  rw [described.parent]
  cases level with
  | zero => simp [outline, callAt]
  | succ above =>
      have branches : 0 < r.branching.toNat :=
        Nat.pos_of_ne_zero fun none => by simp [none] at inside
      have callerInside : index / r.branching.toNat < r.branching.toNat ^ above :=
        Nat.div_lt_of_lt_mul (Nat.pow_succ' ▸ inside)
      simp only [callAt, Nat.add_one_ne_zero, if_false, Nat.add_sub_cancel, Option.some.injEq]
      constructor
      · rintro ⟨⟨level, caller⟩, i, bounded, place, made⟩
        obtain ⟨row, rfl⟩ := Prod.mk.inj made
        obtain rfl : level = above := Nat.succ.inj row
        obtain ⟨-, -, rfl⟩ := (getElem?_callsThrough_iff distinct).mp place
        -- dividing takes every index of the block back to the one caller
        have quotient : (caller * r.branching.toNat + i) / r.branching.toNat = caller := by
          have remainder : i / r.branching.toNat = 0 := Nat.div_eq_of_lt bounded
          rw [Nat.mul_comm, Nat.mul_add_div branches, remainder, Nat.add_zero]
        exact congrArg _ quotient
      · rintro rfl
        exact ⟨(above, index / r.branching.toNat), index % r.branching.toNat,
          Nat.mod_lt index branches,
          getElem?_callsThrough (Nat.le_of_succ_le within) callerInside,
          Prod.ext rfl (Nat.div_add_mod' index r.branching.toNat)⟩

/-- The calls made fill a block of the row below. -/
theorem children_eq (distinct : (r.callsThrough last).Nodup)
    (described : (r.outline initial).Describes (r.callsThrough last) (level, index) call)
    (inside : index < r.branching.toNat ^ level) :
    call.children = (r.callAt initial last level index).children := by
  apply Array.ext_getElem?
  intro i
  apply Option.ext
  intro slot
  have made : (r.outline initial).child (level, index) i =
      (level + 1, r.branching.toNat * index + i) := by
    rw [Nat.mul_comm]
    rfl
  have block (bounded : i < r.branching.toNat) :
      r.branching.toNat * index + i < r.branching.toNat ^ (level + 1) := by
    calc r.branching.toNat * index + i
      _ < r.branching.toNat * (index + 1) := Nat.add_lt_add_left bounded _
      _ ≤ r.branching.toNat * r.branching.toNat ^ level := Nat.mul_le_mul_left _ inside
      _ = r.branching.toNat ^ (level + 1) := Nat.pow_succ'.symm
  rw [described.children, made, getElem?_callsThrough_iff distinct]
  change i < r.branching.toNat ∧ _ ↔ _
  by_cases above : level < last
  · simp only [callAt, if_pos above, List.getElem?_toArray, List.getElem?_map]
    by_cases bounded : i < r.branching.toNat
    · simp [bounded, block bounded, Nat.succ_le_of_lt above, eq_comm]
    · simp [bounded]
  · simp [callAt, above]

theorem eq_callAt (distinct : (r.callsThrough last).Nodup)
    (described : (r.outline initial).Describes (r.callsThrough last) (level, index) call)
    (unmarked : call.repeats = none) (within : level ≤ last)
    (inside : index < r.branching.toNat ^ level) :
    call = r.callAt initial last level index := by
  have parent := parent_eq distinct described within inside
  have children := children_eq distinct described inside
  have id := described.id
  have argument := described.argument
  have levelEq := described.level
  have isBase := described.isBase
  cases call
  exact Call.mk.injEq .. ▸ ⟨id, argument, levelEq, isBase, parent, children, unmarked⟩

end

/-! ### Whole trees -/

theorem isRegular_of_follows (branches : 0 < r.branching.toNat) {tree : CallTree}
    (follows : tree.Follows (r.outline initial) (r.callsThrough last)) (unmarked : tree.Unmarked)
    (above : ∀ level < last, r.isBase (r.sizeAt initial level) = false)
    (widths : tree.rowWidths.toList = (List.range (last + 1)).map r.widthAt) :
    r.IsRegular initial last tree where
  levelCount := levelCount_of_follows branches follows
  widths := by
    rw [widths]
    exact List.map_congr_left fun level _ => r.widthAt_eq_pow level
  size := by
    rw [follows.size, length_callsThrough]
    rfl
  calls := by
    intro level within index inside
    obtain ⟨call, found, described⟩ := follows.call (getElem?_callsThrough within inside)
    rw [found, eq_callAt follows.distinct described _ within inside]
    exact unmarked call (Array.mem_of_getElem? found)
  above := by
    intro call member higher
    obtain ⟨slot, found⟩ := Array.getElem?_of_mem member
    obtain ⟨key, -, described⟩ := follows.key_of_call found
    rw [described.level] at higher
    rw [described.isBase]
    exact above key.1 higher

/-- Whatever ends it, the unfolding of a checked recurrence is a regular tree. -/
theorem expand_isRegular (valid : r.check = .ok ()) (initial : Float) (depth : Nat)
    (nodeLimit : UInt64) :
    ∃ expansion last, r.expand initial depth nodeLimit = .ok expansion ∧
      r.IsRegular initial last expansion.tree := by
  obtain ⟨expansion, run, outcome⟩ := r.expand_outcome initial depth nodeLimit
  obtain ⟨last, follows, above, widths, -⟩ := outcome.exists_last
  refine ⟨expansion, last, run, ?_⟩
  exact isRegular_of_follows (reduction_of_check valid).1 follows
    (Recurrence.unmarked_of_expand (r := .divideConquer r) run) above widths

/-- The limit leaves no room for the nine calls of the third row. -/
theorem expand_isRegular_ternary :
    let ternary : DivideConquer := { branching := 3, reduction := 2.5, work := "n", threshold := 1 }
    ternary.check = .ok () ∧
      ∃ expansion, ternary.expand 10 3 12 = .ok expansion ∧
        ternary.IsRegular 10 1 expansion.tree := by
  refine ⟨rfl, ?_⟩
  obtain ⟨expansion, last, run, regular⟩ :=
    expand_isRegular (r := ⟨3, 2.5, "n", 1⟩) rfl 10 3 12
  have rows := congrArg (Except.map (·.tree.rowWidths.size)) run
  obtain rfl : last = 1 := by
    have length := congrArg List.length regular.widths
    rw [Array.length_toList, List.length_map, List.length_range] at length
    exact Nat.succ.inj (length.symm.trans (Except.ok.inj rows).symm)
  exact ⟨expansion, run, regular⟩

end DivideConquer

end Unfolding
