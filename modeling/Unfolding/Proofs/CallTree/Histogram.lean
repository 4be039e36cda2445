import Unfolding.Proofs.Words.Levels
import Mathlib.Order.Bounds.Basic

/-!
The histogram of the levels of a call tree.

Counting goes through the calls in the order of their slots, where deep calls may stand
in front of shallow ones.  No level up to the deepest is empty, because a call has a
caller on the level above.
-/

namespace Unfolding

namespace CallTree

variable {tree : CallTree}

/-- The levels on which calls stand. -/
def occupiedLevels (tree : CallTree) : Set Nat := {level | ∃ slot, tree.level? slot = some level}

/-- Each level up to the deepest has an entry, which counts the calls there. -/
structure IsHistogram (tree : CallTree) (counts : Array LevelCount) : Prop where
  size : counts.size = tree.levelCount
  entry : ∀ {level : Nat} {count : LevelCount}, counts[level]? = some count →
    count.calls = tree.callsOn level ∧ count.bases = tree.basesOn level
  occupied : ∀ count ∈ counts, 1 ≤ count.calls
  bases_le : ∀ count ∈ counts, count.bases ≤ count.calls
  total : (counts.toList.map LevelCount.calls).sum = tree.size

theorem basesOn_le_callsOn (tree : CallTree) (level : Nat) :
    tree.basesOn level ≤ tree.callsOn level := by
  apply List.countP_mono_left
  intro call _ base
  exact decide_eq_true (of_decide_eq_true base).1

theorem size_levels (tree : CallTree) : tree.levels.size = tree.levelCount := by
  rw [← Array.length_toList, toList_levels, List.length_map, List.length_range]

theorem getElem?_levels {level : Nat} {count : LevelCount}
    (found : tree.levels[level]? = some count) :
    level < tree.levelCount ∧
      count = { calls := tree.callsOn level, bases := tree.basesOn level } := by
  rw [← Array.getElem?_toList, toList_levels, List.getElem?_map] at found
  obtain ⟨place, inRange, rfl⟩ := Option.map_eq_some_iff.mp found
  obtain ⟨inside, rfl⟩ := List.getElem?_eq_some_iff.mp inRange
  rw [List.length_range] at inside
  rw [List.getElem_range]
  exact ⟨inside, rfl⟩

theorem levelCount_of_size_eq_zero (empty : tree.size = 0) : tree.levelCount = 0 := by
  have noCalls : tree.calls = #[] := Array.eq_empty_of_size_eq_zero empty
  rw [levelCount, noCalls]
  rfl

theorem level_mem_occupiedLevels {call : Call} {slot : Nat}
    (found : tree.calls[slot]? = some call) :
    call.level ∈ tree.occupiedLevels :=
  ⟨slot, by rw [level?, found, Option.map_some]⟩

theorem lt_levelCount_of_occupied {level : Nat} (occupied : level ∈ tree.occupiedLevels) :
    level < tree.levelCount := by
  obtain ⟨slot, here⟩ := occupied
  obtain ⟨call, found, rfl⟩ := Option.map_eq_some_iff.mp here
  exact level_lt_levelCount (Array.mem_def.mp (Array.mem_of_getElem? found))

/-- The number of levels is one more than the deepest. -/
theorem isGreatest_occupiedLevels_iff {deepest : Nat} :
    IsGreatest tree.occupiedLevels deepest ↔ tree.levelCount = deepest + 1 := by
  constructor
  · rintro ⟨occupied, greatest⟩
    obtain ⟨slot, here⟩ := occupied
    obtain ⟨last, call, found, reached⟩ :=
      exists_deepest (Nat.zero_lt_of_lt (lt_size_of_level? here))
    have below := lt_levelCount_of_occupied ⟨slot, here⟩
    have above := greatest (level_mem_occupiedLevels found)
    omega
  · intro counted
    have nonempty : 0 < tree.size := by
      apply Nat.pos_of_ne_zero
      intro empty
      rw [levelCount_of_size_eq_zero empty] at counted
      omega
    obtain ⟨last, call, found, reached⟩ := exists_deepest nonempty
    obtain rfl : call.level = deepest := by omega
    refine ⟨level_mem_occupiedLevels found, ?_⟩
    intro level occupied
    have below := lt_levelCount_of_occupied occupied
    omega

theorem Linked.isHistogram (linked : tree.Linked) : tree.IsHistogram tree.levels where
  size := tree.size_levels
  entry found := by
    obtain ⟨-, rfl⟩ := getElem?_levels found
    exact ⟨rfl, rfl⟩
  occupied := by
    intro count member
    obtain ⟨level, found⟩ := Array.getElem?_of_mem member
    obtain ⟨inside, rfl⟩ := getElem?_levels found
    exact linked.callsOn_pos inside
  bases_le := by
    intro count member
    obtain ⟨level, found⟩ := Array.getElem?_of_mem member
    obtain ⟨-, rfl⟩ := getElem?_levels found
    exact tree.basesOn_le_callsOn level
  total := by
    rw [← Array.toList_map, toList_map_calls_levels, sum_callsOn]

end CallTree

namespace Words

/-- The counts that words hold. -/
def Tally.count (tally : Tally) : LevelCount where
  calls := tally.calls.toNat
  bases := tally.bases.toNat

theorem Tally.count_ofCount {count : LevelCount} (calls : count.calls < UInt32.size)
    (bases : count.bases < UInt32.size) : (Tally.ofCount count).count = count := by
  rw [Tally.count, Tally.ofCount, toNat_ofNat calls, toNat_ofNat bases]

/-- Counting with words reaches every entry that it asks for and loses no call. -/
theorem exists_levels_ofTree {tree : CallTree} (linked : tree.Linked)
    (bounded : tree.size ≤ CallTree.capacity) :
    ∃ tallies, (ofTree tree).levels = .ok tallies ∧ tallies.map Tally.count = tree.levels := by
  refine ⟨_, levels_ofTree linked bounded, ?_⟩
  have capacity : CallTree.capacity < UInt32.size := by decide
  apply Array.ext_getElem?
  intro level
  rw [Array.getElem?_map, Array.getElem?_map]
  cases found : tree.levels[level]? with
  | none => rfl
  | some count =>
      obtain ⟨-, rfl⟩ := CallTree.getElem?_levels found
      have calls := tree.callsOn_le level
      have bases := tree.basesOn_le level
      rw [Option.map_some, Option.map_some, Tally.count_ofCount (by dsimp only; omega)
        (by dsimp only; omega)]

end Words

namespace CallTree

/-- However a tree was built, its levels are counted without gaps and without losing a
call, and no count is asked for that is not there. -/
theorem history_counts_levels (family : Family) (changes : List Edit) :
    let tree := attemptAll { family } changes
    tree.IsHistogram tree.levels ∧
    (tree.size = 0 → tree.levelCount = 0) ∧
    (0 < tree.size → ∃ deepest, IsGreatest tree.occupiedLevels deepest ∧
      tree.levelCount = deepest + 1) ∧
    ∃ tallies, (Words.ofTree tree).levels = .ok tallies ∧
      tallies.map Words.Tally.count = tree.levels := by
  have linked : (attemptAll { family } changes).Linked := (Linked.of_empty rfl).attemptAll changes
  have bounded : (attemptAll { family } changes).size ≤ capacity :=
    size_attemptAll_le (Nat.zero_le _) changes
  refine ⟨linked.isHistogram, levelCount_of_size_eq_zero, ?_,
    Words.exists_levels_ofTree linked bounded⟩
  intro nonempty
  obtain ⟨slot, call, -, deepest⟩ := exists_deepest nonempty
  exact ⟨call.level, isGreatest_occupiedLevels_iff.mpr deepest.symm, deepest.symm⟩

end CallTree

end Unfolding
