import Unfolding.Proofs.CallTree.Links
import Mathlib.Algebra.BigOperators.Group.List.Lemmas
import Mathlib.Algebra.Ring.Nat
import Mathlib.Data.List.Dedup

/-!
What is noted about repeated arguments.

Arguments are told apart by their keys.  A call is marked with the number of calls
that have its key, and the marks are summed up key by key.
-/

namespace Unfolding

namespace CallTree

/-- The keys of the arguments of all calls, in the order of the slots. -/
def argumentKeys (tree : CallTree) : List UInt64 :=
  tree.calls.toList.map fun call => argumentKey call.argument

/-- No repetitions are noted yet. -/
def Unmarked (tree : CallTree) : Prop := ∀ call ∈ tree.calls, call.repeats = none

/-- What is noted may be out of date, but there are as many calls as it says. -/
def MarksWithin (tree : CallTree) : Prop :=
  ∀ call ∈ tree.calls, ∀ count, call.repeats = some count →
    1 < count ∧ count ≤ tree.argumentKeys.count (argumentKey call.argument)

namespace Unmarked

variable {tree result : CallTree} {id : String} {argument : Float} {isBase : Bool}

theorem of_calls_eq (unmarked : tree.Unmarked) (same : result.calls = tree.calls) :
    result.Unmarked := by
  rw [Unmarked, same]
  exact unmarked

theorem addRoot (added : tree.addRoot id argument isBase = .ok result) : result.Unmarked := by
  obtain ⟨-, single⟩ := exists_of_addRoot added
  intro call member
  rw [single, Array.mem_singleton] at member
  rw [member]

theorem addChild {parent : Nat} (unmarked : tree.Unmarked)
    (added : tree.addChild parent id argument isBase = .ok result) : result.Unmarked := by
  obtain ⟨caller, found, calls⟩ := getElem?_of_addChild added
  intro call member
  obtain ⟨slot, place⟩ := Array.getElem?_of_mem member
  rw [calls] at place
  split at place
  · cases place
    rfl
  · split at place
    · cases place
      exact unmarked caller (Array.mem_of_getElem? found)
    · exact unmarked call (Array.mem_of_getElem? place)

theorem marksWithin (unmarked : tree.Unmarked) : tree.MarksWithin := by
  intro call member count noted
  rw [unmarked call member] at noted
  cases noted

end Unmarked

/-! ### Counts -/

theorem getElem?_foldl_count (keys : List UInt64) (counts : Std.TreeMap UInt64 Nat)
    (key : UInt64) :
    (keys.foldl (fun counts key => counts.insert key (counts.getD key 0 + 1)) counts)[key]? =
      if key ∈ keys then some (counts.getD key 0 + keys.count key) else counts[key]? := by
  induction keys generalizing counts with
  | nil => simp
  | cons first keys inductionHypothesis =>
      rw [List.foldl_cons, inductionHypothesis, Std.TreeMap.getD_insert,
        Std.TreeMap.getElem?_insert]
      by_cases here : first = key
      · subst here
        by_cases again : first ∈ keys
        · simp [again, Nat.add_assoc, Nat.add_comm 1]
        · simp [again, List.count_eq_zero.mpr again]
      · simp [here, Ne.symm here]

variable (tree : CallTree)

theorem argumentCounts_eq_foldl :
    tree.argumentCounts = tree.argumentKeys.foldl
      (fun counts key => counts.insert key (counts.getD key 0 + 1)) ∅ := by
  rw [argumentCounts, argumentKeys, List.foldl_map, Array.foldl_toList]

theorem getElem?_argumentCounts (key : UInt64) :
    tree.argumentCounts[key]? =
      if key ∈ tree.argumentKeys then some (tree.argumentKeys.count key) else none := by
  rw [argumentCounts_eq_foldl, getElem?_foldl_count]
  simp

theorem getD_argumentCounts (key : UInt64) :
    tree.argumentCounts.getD key 0 = tree.argumentKeys.count key := by
  rw [Std.TreeMap.getD_eq_getD_getElem?, getElem?_argumentCounts]
  split
  · rfl
  · rename_i absent
    rw [List.count_eq_zero.mpr absent]
    rfl

omit tree in
/-- A map that is known key by key lists every key once. -/
theorem toList_perm_of_getElem? {β : Type} {entries : Std.TreeMap UInt64 β} {keys : List UInt64}
    {value : UInt64 → β}
    (known : ∀ key, entries[key]? = if key ∈ keys then some (value key) else none) :
    entries.toList.Perm (keys.dedup.map fun key => (key, value key)) := by
  have distinct : entries.toList.Nodup := by
    apply List.Nodup.of_map Prod.fst
    rw [Std.TreeMap.map_fst_toList_eq_keys]
    exact Std.TreeMap.nodup_keys
  have distinctKeys : (keys.dedup.map fun key => (key, value key)).Nodup := by
    apply (List.nodup_dedup _).map
    intro key other same
    exact congrArg Prod.fst same
  rw [List.perm_ext_iff_of_nodup distinct distinctKeys]
  rintro ⟨key, entry⟩
  rw [Std.TreeMap.mem_toList_iff_getElem?_eq_some, known]
  simp only [List.mem_map, List.mem_dedup, Prod.mk.injEq]
  constructor
  · intro found
    split at found
    · rename_i present
      exact ⟨key, present, rfl, Option.some.inj found⟩
    · cases found
  · rintro ⟨same, present, rfl, rfl⟩
    rw [if_pos present]

/-- Every key is counted once. -/
theorem toList_argumentCounts_perm :
    tree.argumentCounts.toList.Perm
      (tree.argumentKeys.dedup.map fun key => (key, tree.argumentKeys.count key)) :=
  toList_perm_of_getElem? tree.getElem?_argumentCounts

/-- The counts above one belong to the repeated keys. -/
theorem filter_counts_perm :
    ((tree.argumentCounts.toList.map Prod.snd).filter (1 < ·)).Perm
      ((tree.argumentKeys.dedup.filter fun key => 1 < tree.argumentKeys.count key).map
        fun key => tree.argumentKeys.count key) := by
  have counts := (tree.toList_argumentCounts_perm.map Prod.snd).filter fun count => 1 < count
  rw [List.map_map] at counts
  exact counts.trans (.of_eq List.filter_map)

/-! ### Marks -/

variable {tree}

namespace MarksWithin

/-- Marks that are out of date are replaced, since their calls still repeat. -/
theorem getElem?_markRepeats (within : tree.MarksWithin) {slot : Nat} {call : Call}
    (found : tree.calls[slot]? = some call) :
    tree.markRepeats.1.calls[slot]? = some { call with
      repeats :=
        let count := tree.argumentKeys.count (argumentKey call.argument)
        if 1 < count then some count else none } := by
  simp only [markRepeats, Array.getElem?_map, found, Option.map_some, noteRepeats,
    getD_argumentCounts]
  split
  · rfl
  · rename_i single
    have unnoted : call.repeats = none := by
      cases noted : call.repeats with
      | none => rfl
      | some count =>
          have bounds := within call (Array.mem_of_getElem? found) count noted
          exact absurd (Nat.lt_of_lt_of_le bounds.1 bounds.2) single
    rw [← unnoted]

/-- The calls that are marked are those with a repeated key. -/
theorem countP_isSome_repeats (within : tree.MarksWithin) :
    tree.markRepeats.1.calls.toList.countP (·.repeats.isSome) =
      tree.argumentKeys.countP fun key => 1 < tree.argumentKeys.count key := by
  have marks : tree.markRepeats.1.calls.toList.map (·.repeats.isSome) =
      tree.argumentKeys.map fun key => decide (1 < tree.argumentKeys.count key) := by
    apply List.ext_getElem?
    intro slot
    rw [List.getElem?_map, List.getElem?_map, argumentKeys, List.getElem?_map,
      Array.getElem?_toList, Array.getElem?_toList]
    cases found : tree.calls[slot]? with
    | none => simp [CallTree.markRepeats, found]
    | some call =>
        rw [within.getElem?_markRepeats found]
        simp only [Option.map_some]
        split <;> simp_all [argumentKeys]
  have counts := congrArg (List.countP id) marks
  rwa [List.countP_map, List.countP_map] at counts

/-- Summing up the repeated keys gives the number of marked calls. -/
theorem annotated_markRepeats (within : tree.MarksWithin) :
    tree.markRepeats.2.annotated = tree.markRepeats.1.calls.toList.countP (·.repeats.isSome) := by
  rw [within.countP_isSome_repeats, ← List.sum_map_count_dedup_filter_eq_countP,
    ← tree.filter_counts_perm.sum_eq, List.sum_eq_foldl]
  rfl

end MarksWithin

theorem getElem?_markRepeats (unmarked : tree.Unmarked) {slot : Nat} {call : Call}
    (found : tree.calls[slot]? = some call) :
    tree.markRepeats.1.calls[slot]? = some { call with
      repeats :=
        let count := tree.argumentKeys.count (argumentKey call.argument)
        if 1 < count then some count else none } :=
  unmarked.marksWithin.getElem?_markRepeats found

theorem annotated_markRepeats (unmarked : tree.Unmarked) :
    tree.markRepeats.2.annotated = tree.markRepeats.1.calls.toList.countP (·.repeats.isSome) :=
  unmarked.marksWithin.annotated_markRepeats

theorem groups_markRepeats (tree : CallTree) :
    tree.markRepeats.2.groups =
      (tree.argumentKeys.dedup.filter fun key => 1 < tree.argumentKeys.count key).length :=
  tree.filter_counts_perm.length_eq.trans (List.length_map _)

/-- The order of the calls does not matter for the number of repeated keys. -/
theorem groups_eq_of_perm {tree other : CallTree}
    (same : tree.argumentKeys.Perm other.argumentKeys) :
    tree.markRepeats.2.groups = other.markRepeats.2.groups := by
  rw [groups_markRepeats, groups_markRepeats, (same.dedup.filter _).length_eq]
  simp only [same.count_eq]

/-- There are no more repeated keys than calls. -/
theorem groups_markRepeats_le (tree : CallTree) : tree.markRepeats.2.groups ≤ tree.size := by
  calc
    tree.markRepeats.2.groups ≤ tree.argumentKeys.dedup.length := by
      rw [groups_markRepeats]
      exact List.length_filter_le _ _
    _ ≤ tree.argumentKeys.length := (List.dedup_sublist _).length_le
    _ = tree.size := by simp [argumentKeys, size]

end CallTree

end Unfolding
