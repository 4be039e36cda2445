import Unfolding.Proofs.Words.Columns

/-!
The calls of each level, counted in words.

No counter leaves its width, since none counts a call twice and there are fewer
calls than words.
-/

namespace Unfolding.Words

/-- The calls on one level, and how many of them are base cases. -/
structure Tally where
  calls : UInt32 := 0
  bases : UInt32 := 0

def Tally.ofCount (count : LevelCount) : Tally where
  calls := .ofNat count.calls
  bases := .ofNat count.bases

namespace Columns

/-- One more than the deepest level; zero without calls. -/
def levelCount (columns : Columns) : Checked UInt32 :=
  if columns.level.isEmpty then .ok 0 else add (columns.level.foldl max 0) 1

/-- Count one more call on its level. -/
def tally (tallies : Array Tally) (call : UInt32 × Bool) : Checked (Array Tally) := do
  let (level, isBase) := call
  let entry ← read tallies level.toNat
  let calls ← add entry.calls 1
  let bases ← if isBase then add entry.bases 1 else pure entry.bases
  write tallies level.toNat { calls, bases }

/-- The counts of all levels, the root's first. -/
def levels (columns : Columns) : Checked (Array Tally) := do
  let count ← columns.levelCount
  (columns.level.toList.zip columns.isBase.toList).foldlM tally (Array.replicate count.toNat {})

end Columns

variable {tree : CallTree}

/-! ### Levels -/

theorem foldl_max_ofNat {levels : List Nat} {deepest : Nat} (fits : deepest < UInt32.size)
    (levelsFit : ∀ level ∈ levels, level < UInt32.size) :
    (levels.map UInt32.ofNat).foldl max (.ofNat deepest) = .ofNat (levels.foldl max deepest) := by
  induction levels generalizing deepest with
  | nil => rfl
  | cons level levels inductionHypothesis =>
      rw [List.forall_mem_cons] at levelsFit
      have larger : max (UInt32.ofNat deepest) (.ofNat level) = .ofNat (max deepest level) := by
        change (if UInt32.ofNat deepest ≤ .ofNat level then _ else _) = UInt32.ofNat _
        simp only [UInt32.le_iff_toNat_le, toNat_ofNat fits, toNat_ofNat levelsFit.1, Nat.max_def]
        split <;> rfl
      rw [List.map_cons, List.foldl_cons, List.foldl_cons, larger]
      exact inductionHypothesis (Nat.max_lt.mpr ⟨fits, levelsFit.1⟩) levelsFit.2

theorem foldl_max_succ (calls : List Call) (deepest : Nat) :
    calls.foldl (fun count call => max count (call.level + 1)) (deepest + 1) =
      (calls.map Call.level).foldl max deepest + 1 := by
  induction calls generalizing deepest with
  | nil => rfl
  | cons call calls inductionHypothesis =>
      rw [List.foldl_cons, Nat.add_max_add_right, inductionHypothesis, List.map_cons,
        List.foldl_cons]

theorem levelCount_eq_max (nonempty : tree.calls ≠ #[]) :
    tree.levelCount = (tree.calls.toList.map Call.level).foldl max 0 + 1 := by
  rw [CallTree.levelCount_eq_foldl]
  cases calls : tree.calls.toList with
  | nil => exact absurd (Array.toList_eq_nil_iff.mp calls) nonempty
  | cons root others => simp [← foldl_max_succ]

/-- Levels are below their number of calls, so they are words and so is their number. -/
theorem levelCount_ofTree (linked : tree.Linked) (bounded : tree.size ≤ CallTree.capacity) :
    (ofTree tree).levelCount = .ok (.ofNat tree.levelCount) := by
  have capacity : CallTree.capacity < UInt32.size := by decide
  have levelsFit : ∀ level ∈ tree.calls.toList.map Call.level, level < UInt32.size := by
    simp only [List.mem_map, forall_exists_index, and_imp, forall_apply_eq_imp_iff₂]
    intro call member
    exact Nat.lt_trans (level_lt_capacity linked bounded member) capacity
  have words : (ofTree tree).level.foldl max 0 =
      .ofNat ((tree.calls.toList.map Call.level).foldl max 0) := by
    rw [← foldl_max_ofNat (by decide) levelsFit, ← Array.foldl_toList]
    simp [ofTree, Function.comp_def]
  rw [Columns.levelCount, words]
  by_cases empty : tree.calls = #[]
  · simp [ofTree, empty, CallTree.levelCount]
  · have counted := levelCount_eq_max empty
    have deepest := Nat.le_trans linked.levelCount_le bounded
    rw [counted] at deepest ⊢
    rw [if_neg (by simpa [ofTree] using empty)]
    exact add_ofNat (Nat.lt_of_le_of_lt deepest capacity)

/-! ### Counts of levels -/

theorem map_modify {α β : Type} {items : Array α} {index : Nat} {item : α} (ofItem : α → β)
    (change : α → α) (found : items[index]? = some item) :
    (items.modify index change).map ofItem =
      (items.map ofItem).setIfInBounds index (ofItem (change item)) := by
  have inside := (Array.getElem?_eq_some_iff.mp found).1
  apply Array.ext_getElem?
  intro other
  by_cases here : index = other
  · subst here
    rw [Array.getElem?_setIfInBounds_self_of_lt (by simpa using inside)]
    rw [Array.getElem?_map, Array.getElem?_modify, if_pos rfl, found, Option.map_some,
      Option.map_some]
  · simp [Array.getElem?_modify, here]

/-- A counter has room for the calls that are still to be counted. -/
def HasRoom (counts : Array LevelCount) (left : Nat) : Prop :=
  ∀ count ∈ counts, count.bases ≤ count.calls ∧ count.calls + left < UInt32.size

theorem HasRoom.add {counts : Array LevelCount} {level left : Nat}
    (roomy : HasRoom counts (left + 1)) (isBase : Bool) :
    HasRoom (counts.modify level (·.add isBase)) left := by
  intro count member
  obtain ⟨other, found⟩ := Array.getElem?_of_mem member
  rw [Array.getElem?_modify] at found
  split at found
  · obtain ⟨before, foundBefore, rfl⟩ := Option.map_eq_some_iff.mp found
    obtain ⟨ordered, fits⟩ := roomy before (Array.mem_of_getElem? foundBefore)
    cases isBase
    all_goals
      simp only [LevelCount.add]
      grind
  · obtain ⟨ordered, fits⟩ := roomy count (Array.mem_of_getElem? found)
    omega

theorem tally_ofCount {counts : Array LevelCount} {call : Call} {left : Nat}
    (roomy : HasRoom counts (left + 1)) (fits : call.level < UInt32.size)
    (inside : call.level < counts.size) :
    Columns.tally (counts.map .ofCount) (.ofNat call.level, call.isBase) =
      .ok ((counts.modify call.level (·.add call.isBase)).map .ofCount) := by
  obtain ⟨count, found⟩ : ∃ count, counts[call.level]? = some count :=
    ⟨_, Array.getElem?_eq_getElem inside⟩
  obtain ⟨ordered, room⟩ := roomy count (Array.mem_of_getElem? found)
  have entry : read (counts.map Tally.ofCount) call.level = .ok (.ofCount count) :=
    read_eq_ok (by simp [found])
  have calls : count.calls + 1 < UInt32.size := by omega
  have bases : count.bases + 1 < UInt32.size := by omega
  have writable : call.level < (counts.map Tally.ofCount).size := by simpa using inside
  rw [map_modify Tally.ofCount _ found, Columns.tally]
  simp only [toNat_ofNat fits, entry, ok_bind]
  cases call.isBase with
  | false => simp [Tally.ofCount, LevelCount.add, add_one calls, write_eq_ok writable]
  | true => simp [Tally.ofCount, LevelCount.add, add_one calls, add_one bases, write_eq_ok writable]

theorem foldlM_tally {calls : List Call} {counts : Array LevelCount}
    (roomy : HasRoom counts calls.length)
    (fits : ∀ call ∈ calls, call.level < UInt32.size ∧ call.level < counts.size) :
    (calls.map fun call => (UInt32.ofNat call.level, call.isBase)).foldlM Columns.tally
        (counts.map .ofCount) =
      .ok ((calls.foldl (fun counts call => counts.modify call.level (·.add call.isBase))
        counts).map .ofCount) := by
  induction calls generalizing counts with
  | nil => rfl
  | cons call calls inductionHypothesis =>
      rw [List.forall_mem_cons] at fits
      rw [List.map_cons, List.foldlM_cons, tally_ofCount roomy fits.1.1 fits.1.2, ok_bind,
        List.foldl_cons]
      exact inductionHypothesis (roomy.add call.isBase) (by simpa using fits.2)

theorem levels_ofTree (linked : tree.Linked) (bounded : tree.size ≤ CallTree.capacity) :
    (ofTree tree).levels = .ok (tree.levels.map .ofCount) := by
  have capacity : CallTree.capacity < UInt32.size := by decide
  have levels := Nat.le_trans linked.levelCount_le bounded
  have columns : (ofTree tree).level.toList.zip (ofTree tree).isBase.toList =
      tree.calls.toList.map fun call => (UInt32.ofNat call.level, call.isBase) := by
    simp [ofTree, List.zip_map']
  have roomy : HasRoom (Array.replicate tree.levelCount {}) tree.calls.toList.length := by
    intro count member
    obtain ⟨-, rfl⟩ := Array.mem_replicate.mp member
    rw [Array.length_toList, Nat.zero_add]
    exact ⟨Nat.le_refl 0, Nat.lt_of_le_of_lt bounded capacity⟩
  have fits : ∀ call ∈ tree.calls.toList, call.level < UInt32.size ∧
      call.level < (Array.replicate tree.levelCount ({} : LevelCount)).size := by
    intro call member
    rw [Array.size_replicate]
    exact ⟨Nat.lt_trans (level_lt_capacity linked bounded member) capacity,
      CallTree.level_lt_levelCount member⟩
  have start : (Array.replicate tree.levelCount {}).map Tally.ofCount =
      Array.replicate tree.levelCount {} := Array.map_replicate
  rw [Columns.levels, levelCount_ofTree linked bounded, ok_bind, columns,
    toNat_ofNat (Nat.lt_of_le_of_lt levels capacity), ← start, foldlM_tally roomy fits,
    CallTree.levels, Array.foldl_toList]

end Unfolding.Words
