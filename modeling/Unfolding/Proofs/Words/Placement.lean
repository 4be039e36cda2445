import Unfolding.Proofs.Drawing.Separation
import Unfolding.Proofs.Words.Levels

/-!
Placing calls by words.

A grid counts the calls seen on each level.  A centred drawing takes three sweeps
over the slots, each with arrays in which calls note something for their callers:
the leaves below them, where the next child begins, the coordinates and the number
of children.
-/

namespace Unfolding

/-! ### Children on both sides of a slot -/

namespace CallTree

variable {tree : CallTree} {slot parent : Nat}

/-- The children of a call in front of a slot. -/
def childrenBefore (tree : CallTree) (slot parent : Nat) : List Nat :=
  (tree.children parent).filter (· < slot)

/-- The children of a call from a slot on. -/
def childrenFrom (tree : CallTree) (slot parent : Nat) : List Nat :=
  (tree.children parent).filter (slot ≤ ·)

theorem parent?_ne {other : Nat} (made : tree.parent? slot = some parent) (apart : other ≠ parent) :
    tree.parent? slot ≠ some other := by
  rw [made]
  exact fun same => apart (Option.some.inj same).symm

namespace Linked

/-- A child parts its siblings into earlier and later ones. -/
theorem exists_siblings (linked : tree.Linked) (made : tree.parent? slot = some parent) :
    ∃ before after, tree.children parent = before ++ slot :: after ∧
      (∀ child ∈ before, child < slot) ∧ ∀ child ∈ after, slot < child := by
  obtain ⟨before, after, split⟩ := List.append_of_mem (linked.mem_children_iff.mpr made)
  have ordered := linked.pairwise_children parent
  simp only [split, List.pairwise_append, List.pairwise_cons, List.forall_mem_cons] at ordered
  exact ⟨before, after, split, fun child member => (ordered.2.2 child member).1, ordered.2.1.1⟩

theorem childrenFrom_of_parent (linked : tree.Linked) (made : tree.parent? slot = some parent) :
    tree.childrenFrom slot parent = slot :: tree.childrenFrom (slot + 1) parent := by
  obtain ⟨before, after, split, inFront, behind⟩ := linked.exists_siblings made
  have front : before.filter (slot ≤ ·) = [] ∧ before.filter (slot + 1 ≤ ·) = [] := by
    simp only [List.filter_eq_nil_iff, decide_eq_true_eq]
    exact ⟨fun child member => by grind, fun child member => by grind⟩
  have back : after.filter (slot ≤ ·) = after ∧ after.filter (slot + 1 ≤ ·) = after := by
    simp only [List.filter_eq_self, decide_eq_true_eq]
    exact ⟨fun child member => by grind, fun child member => by grind⟩
  simp only [childrenFrom, split, List.filter_append, front, back, List.filter_cons]
  simp

theorem childrenFrom_of_ne (linked : tree.Linked) (other : tree.parent? slot ≠ some parent) :
    tree.childrenFrom slot parent = tree.childrenFrom (slot + 1) parent := by
  apply List.filter_congr
  intro child member
  have apart : child ≠ slot := by
    rintro rfl
    exact other (linked.mem_children_iff.mp member)
  simp only [decide_eq_decide]
  omega

/-- All children of a call stand behind it. -/
theorem childrenFrom_succ (linked : tree.Linked) (parent : Nat) :
    tree.childrenFrom (parent + 1) parent = tree.children parent := by
  simp only [childrenFrom, List.filter_eq_self, decide_eq_true_eq]
  exact fun child member => (linked.lt_of_mem_children member).1

theorem childrenFrom_size (linked : tree.Linked) (parent : Nat) :
    tree.childrenFrom tree.size parent = [] := by
  simp only [childrenFrom, List.filter_eq_nil_iff, decide_eq_true_eq, Nat.not_le]
  exact fun child member => (linked.lt_of_mem_children member).2

theorem childrenBefore_succ_of_parent (linked : tree.Linked)
    (made : tree.parent? slot = some parent) :
    tree.childrenBefore (slot + 1) parent = tree.childrenBefore slot parent ++ [slot] := by
  obtain ⟨before, after, split, inFront, behind⟩ := linked.exists_siblings made
  have front : before.filter (· < slot) = before ∧ before.filter (· < slot + 1) = before := by
    simp only [List.filter_eq_self, decide_eq_true_eq]
    exact ⟨fun child member => by grind, fun child member => by grind⟩
  have back : after.filter (· < slot) = [] ∧ after.filter (· < slot + 1) = [] := by
    simp only [List.filter_eq_nil_iff, decide_eq_true_eq]
    exact ⟨fun child member => by grind, fun child member => by grind⟩
  simp only [childrenBefore, split, List.filter_append, front, back, List.filter_cons]
  simp

theorem childrenBefore_succ_of_ne (linked : tree.Linked) (other : tree.parent? slot ≠ some parent) :
    tree.childrenBefore (slot + 1) parent = tree.childrenBefore slot parent := by
  apply List.filter_congr
  intro child member
  have apart : child ≠ slot := by
    rintro rfl
    exact other (linked.mem_children_iff.mp member)
  simp only [decide_eq_decide]
  omega

theorem childrenBefore_succ (linked : tree.Linked) (parent : Nat) :
    tree.childrenBefore (parent + 1) parent = [] := by
  simp only [childrenBefore, List.filter_eq_nil_iff, decide_eq_true_eq]
  intro child member
  have later := (linked.lt_of_mem_children member).1
  omega

/-- A child begins where the children before it end. -/
theorem rangeStart_eq (linked : tree.Linked) (made : tree.parent? slot = some parent) :
    tree.rangeStart slot =
      tree.rangeStart parent + ((tree.childrenBefore slot parent).map tree.leafCount).sum := by
  obtain ⟨before, after, split, inFront, behind⟩ := linked.exists_siblings made
  have front : tree.childrenBefore slot parent = before := by
    have first : before.filter (· < slot) = before := by
      simpa only [List.filter_eq_self, decide_eq_true_eq] using inFront
    have last : after.filter (· < slot) = [] := by
      simp only [List.filter_eq_nil_iff, decide_eq_true_eq]
      exact fun child member => by grind
    simp [childrenBefore, split, first, last]
  rw [front]
  exact linked.rangeStart_child split

theorem length_children_le (linked : tree.Linked) (parent : Nat) :
    (tree.children parent).length ≤ tree.size := by
  rw [linked.children, ← List.length_range (n := tree.size)]
  exact List.length_filter_le _ _

theorem rangeStart_zero (linked : tree.Linked) : tree.rangeStart 0 = 0 := by
  have unmade : ∀ slot ∈ List.range tree.size, 0 ∉ tree.children slot := by
    intro slot _ member
    exact Nat.not_lt_zero slot (linked.lt_of_mem_children member).1
  have kept : tree.rangeStart 0 = (Array.replicate tree.size 0).getD 0 0 :=
    getD_foldl_startStep unmade _
  rw [kept, Array.getD_eq_getD_getElem?, Array.getElem?_replicate]
  split <;> rfl

theorem leafCount_pos (linked : tree.Linked) (inside : slot < tree.size) :
    0 < tree.leafCount slot := by
  apply linked.upward _ inside
  intro slot inside below
  rw [linked.leafCount_eq inside]
  split
  · exact Nat.zero_lt_one
  · rename_i nonempty
    obtain ⟨child, member⟩ := List.exists_mem_of_ne_nil _ nonempty
    exact List.sum_pos_iff_exists_pos_nat.mpr
      ⟨tree.leafCount child, List.mem_map_of_mem member, below child member⟩

end Linked

end CallTree

end Unfolding

namespace Unfolding.Words

variable {α β : Type}

/-! ### Tables -/

/-- An array with an entry for each of a number of slots. -/
def table (count : Nat) (entry : Nat → β) : Array β := ((List.range count).map entry).toArray

section Tables

variable {count slot : Nat} {entry other : Nat → β}

@[simp]
theorem size_table : (table count entry).size = count := by simp [table]

theorem getElem?_table (inside : slot < count) :
    (table count entry)[slot]? = some (entry slot) := by
  simp [table, inside]

theorem read_table (inside : slot < count) : read (table count entry) slot = .ok (entry slot) :=
  read_eq_ok (getElem?_table inside)

theorem table_congr (same : ∀ slot < count, entry slot = other slot) :
    table count entry = table count other := by
  simpa [table] using same

theorem write_table (inside : slot < count) {item : β} (written : other slot = item)
    (kept : ∀ place < count, place ≠ slot → other place = entry place) :
    write (table count entry) slot item = .ok (table count other) := by
  rw [write_eq_ok (by simpa using inside)]
  congr 1
  apply Array.ext_getElem?
  intro place
  rw [Array.getElem?_setIfInBounds, size_table]
  by_cases here : slot = place
  · subst here
    rw [if_pos rfl, if_pos inside, getElem?_table inside, written]
  · rw [if_neg here]
    by_cases within : place < count
    · rw [getElem?_table within, getElem?_table within, kept place within (Ne.symm here)]
    · simp [table, within]

theorem push_table : (table count entry).push (entry count) = table (count + 1) entry := by
  simp [table, List.range_succ]

theorem replicate_eq_table (item : β) : Array.replicate count item = table count fun _ => item := by
  simp [table]

/-- An array is the table of its entries. -/
theorem eq_table {items : Array β} (unknown : β) (sized : items.size = count) :
    items = table count fun slot => items.getD slot unknown := by
  apply Array.ext_getElem?
  intro slot
  by_cases inside : slot < count
  · rw [getElem?_table inside, Array.getD_eq_getD_getElem?,
      Array.getElem?_eq_getElem (sized ▸ inside), Option.getD_some]
  · simp [table, inside, sized]

end Tables

namespace Columns

variable [Coordinate α] (columns : Columns)

/-- Place the next call on a grid.  The first array counts the calls that were seen on
each level. -/
def gridTurn (tallies : Array Tally) (state : Array UInt32 × Array α) (slot : Nat) :
    Checked (Array UInt32 × Array α) := do
  let level ← columns.fetch columns.level (.ofNat slot)
  let index ← read state.1 level.toNat
  let seen ← write state.1 level.toNat (← add index 1)
  let tally ← read tallies level.toNat
  return (seen, state.2.push (CallTree.gridSlot index.toNat tally.calls.toNat))

def gridSlots : Checked (Array α) := do
  let tallies ← columns.levels
  let (_, slots) ← (List.range columns.len.toNat).foldlM (columns.gridTurn tallies)
    (Array.replicate tallies.size 0, #[])
  return slots

/-- Note the leaves of a call with its caller.  A call with which nothing was noted is a
leaf itself. -/
def widthTurn (widths : Array Nat) (slot : Nat) : Checked (Array Nat) := do
  let noted ← read widths slot
  let leaves := if noted = 0 then 1 else noted
  let widths ← write widths slot leaves
  match ← columns.caller (.ofNat slot) with
  | none => return widths
  | some parent => write widths parent.toNat ((← read widths parent.toNat) + leaves)

/-- Where calls begin, and where the next child of each begins. -/
structure Starts where
  starts : Array Nat
  cursors : Array Nat

/-- Let a call begin at the cursor of its caller. -/
def startTurn (widths : Array Nat) (state : Starts) (slot : Nat) : Checked Starts := do
  match ← columns.caller (.ofNat slot) with
  | none => return state
  | some parent =>
      let start ← read state.cursors parent.toNat
      let starts ← write state.starts slot start
      let cursors ← write state.cursors parent.toNat (start + (← read widths slot))
      let cursors ← write cursors slot start
      return { starts, cursors }

/-- The coordinates, and the sum and the number of those of children. -/
structure Centres (α : Type) where
  centres : Array α
  sums : Array α
  counts : Array UInt32

/-- A call without children stands in the middle of its range, others stand above the
mean of their children. -/
def centre (starts : Array Nat) (state : Centres α) (slot : Nat) : Checked α := do
  let count ← read state.counts slot
  if count = 0 then
    return Coordinate.ofNat (← read starts slot) + Coordinate.ofNat 1 / Coordinate.ofNat 2
  else return (← read state.sums slot) / Coordinate.ofNat count.toNat

/-- Place a call and note its coordinate with its caller. -/
def centreTurn (starts : Array Nat) (state : Centres α) (slot : Nat) : Checked (Centres α) := do
  let centre ← centre starts state slot
  let centres ← write state.centres slot centre
  match ← columns.caller (.ofNat slot) with
  | none => return { state with centres }
  | some parent =>
      let sums ← write state.sums parent.toNat ((← read state.sums parent.toNat) + centre)
      let counts ← write state.counts parent.toNat
        (← add (← read state.counts parent.toNat) 1)
      return { centres, sums, counts }

def centredSlots : Checked (Array α) :=
  let count := columns.len.toNat
  if count = 0 then return #[]
  else do
    let widths ← (List.range count).reverse.foldlM columns.widthTurn (Array.replicate count 0)
    let { starts, .. } ← (List.range (count - 1)).foldlM
      (fun state before => columns.startTurn widths state (before + 1))
      { starts := Array.replicate count 0, cursors := Array.replicate count 0 }
    let { centres, .. } ← (List.range count).reverse.foldlM (columns.centreTurn starts)
      { centres := Array.replicate count (Coordinate.ofNat 0)
        sums := Array.replicate count (Coordinate.ofNat 0)
        counts := Array.replicate count 0 }
    let origin ← read centres 0
    return centres.map (· - origin)

/-- The cross coordinates of all calls. -/
def slots : Placement → Checked (Array α)
  | .grid => columns.gridSlots
  | .centred => columns.centredSlots

end Columns

/-! ### Grids -/

section Grids

variable [Coordinate α] {tree : CallTree} {slot : Nat} {call : Call}

theorem earlierOn_succ (found : tree.calls[slot]? = some call) (level : Nat) :
    tree.earlierOn (slot + 1) level =
      tree.earlierOn slot level + if call.level = level then 1 else 0 := by
  rw [← Array.getElem?_toList] at found
  simp [CallTree.earlierOn, List.take_add_one, found, List.countP_append, List.countP_cons]

theorem earlierOn_le (tree : CallTree) (slot level : Nat) : tree.earlierOn slot level ≤ slot :=
  Nat.le_trans List.countP_le_length (List.length_take_le _ _)

theorem getElem?_gridSlots (found : tree.calls[slot]? = some call) :
    (tree.gridSlots : Array α)[slot]? =
      some (CallTree.gridSlot (tree.earlierOn slot call.level) (tree.callsOn call.level)) := by
  have index : tree.levelIndices[slot]? = some (tree.earlierOn slot call.level) := by
    rw [← Array.getElem?_toList, CallTree.toList_levelIndices]
    simp [found]
  have shallow := CallTree.level_lt_levelCount (Array.mem_def.mp (Array.mem_of_getElem? found))
  have count : tree.levels[call.level]? =
      some { calls := tree.callsOn call.level, bases := tree.basesOn call.level } := by
    simp [← Array.getElem?_toList, CallTree.toList_levels, shallow]
  rw [CallTree.gridSlots, Array.getElem?_zipWith, found, index]
  simp [Array.getD_eq_getD_getElem?, count]

/-- What is known when the calls in front of a slot are placed. -/
def gridState (tree : CallTree) (slot : Nat) : Array UInt32 × Array α :=
  (table tree.levelCount fun level => .ofNat (tree.earlierOn slot level),
    table slot fun place => (tree.gridSlots : Array α).getD place (Coordinate.ofNat 0))

theorem gridTurn_ofTree (linked : tree.Linked) (bounded : tree.size ≤ CallTree.capacity)
    (inside : slot < tree.size) :
    (ofTree tree).gridTurn (tree.levels.map .ofCount) (gridState (α := α) tree slot) slot =
      .ok (gridState tree (slot + 1)) := by
  obtain ⟨call, found⟩ := CallTree.lt_size_iff.mp inside
  have capacity : CallTree.capacity < UInt32.size := by decide
  have shallow := CallTree.level_lt_levelCount (Array.mem_def.mp (Array.mem_of_getElem? found))
  have level : (ofTree tree).fetch (ofTree tree).level (.ofNat slot) = .ok (.ofNat call.level) :=
    fetch_ofTree bounded found
  have word : (UInt32.ofNat call.level).toNat = call.level :=
    toNat_slot bounded (Nat.le_trans (Nat.le_of_lt shallow) linked.levelCount_le)
  have few := earlierOn_le tree slot call.level
  have index : (UInt32.ofNat (tree.earlierOn slot call.level)).toNat =
      tree.earlierOn slot call.level := toNat_ofNat (by omega)
  have counted : add (.ofNat (tree.earlierOn slot call.level)) 1 =
      .ok (.ofNat (tree.earlierOn slot call.level + 1)) := add_one (by omega)
  have calls : (UInt32.ofNat (tree.callsOn call.level)).toNat = tree.callsOn call.level :=
    toNat_slot bounded (tree.callsOn_le call.level)
  have tally : read (tree.levels.map Tally.ofCount) call.level =
      .ok (.ofCount { calls := tree.callsOn call.level, bases := tree.basesOn call.level }) := by
    apply read_eq_ok
    simp [← Array.getElem?_toList, CallTree.toList_levels, shallow]
  have seen : write (table tree.levelCount fun level => UInt32.ofNat (tree.earlierOn slot level))
      call.level (.ofNat (tree.earlierOn slot call.level + 1)) =
        .ok (table tree.levelCount fun level => .ofNat (tree.earlierOn (slot + 1) level)) := by
    apply write_table shallow
    · rw [earlierOn_succ found, if_pos rfl]
    · intro level _ elsewhere
      rw [earlierOn_succ found, if_neg (Ne.symm elsewhere), Nat.add_zero]
  have placed : (tree.gridSlots : Array α).getD slot (Coordinate.ofNat 0) =
      CallTree.gridSlot (tree.earlierOn slot call.level) (tree.callsOn call.level) := by
    rw [Array.getD_eq_getD_getElem?, getElem?_gridSlots found, Option.getD_some]
  simp only [Columns.gridTurn, level, ok_bind, word, gridState, read_table shallow, counted, seen,
    tally, index, Tally.ofCount, calls, ← placed, pure_eq_ok]
  rw [push_table]

theorem gridSlots_ofTree (linked : tree.Linked) (bounded : tree.size ≤ CallTree.capacity) :
    (ofTree tree).gridSlots = .ok (tree.gridSlots : Array α) := by
  have len := toNat_len bounded
  have start : (Array.replicate (tree.levels.map Tally.ofCount).size 0, #[]) =
      gridState (α := α) tree 0 := by
    have levels : tree.levels.size = tree.levelCount := by
      rw [← Array.length_toList, CallTree.toList_levels, List.length_map, List.length_range]
    simp [gridState, CallTree.earlierOn, table, levels]
  have sized : (tree.gridSlots : Array α).size = tree.size := tree.size_slots .grid
  rw [Columns.gridSlots, levels_ofTree linked bounded, ok_bind, len, start,
    foldlM_range_eq_ok (gridState tree) fun slot inside => gridTurn_ofTree linked bounded inside]
  exact congrArg Except.ok (eq_table _ sized).symm

end Grids

/-! ### Centred drawings -/

section Centred

variable [Coordinate α] {tree : CallTree} {slot : Nat}

/-- The leaves that are noted with each call when the slots from one on are swept. -/
def widthsFrom (tree : CallTree) (slot place : Nat) : Nat :=
  if slot ≤ place then tree.leafCount place
  else ((tree.childrenFrom slot place).map tree.leafCount).sum

theorem widthTurn_ofTree (linked : tree.Linked) (bounded : tree.size ≤ CallTree.capacity)
    (inside : slot < tree.size) :
    (ofTree tree).widthTurn (table tree.size (widthsFrom tree (slot + 1))) slot =
      .ok (table tree.size (widthsFrom tree slot)) := by
  have noted : widthsFrom tree (slot + 1) slot =
      ((tree.children slot).map tree.leafCount).sum := by
    rw [widthsFrom, if_neg (Nat.not_succ_le_self slot), linked.childrenFrom_succ]
  have leaves :
      (if widthsFrom tree (slot + 1) slot = 0 then 1 else widthsFrom tree (slot + 1) slot) =
        tree.leafCount slot := by
    have positive := linked.leafCount_pos inside
    rw [noted]
    by_cases leaf : tree.children slot = []
    · simp [leaf, linked.leafCount_eq_one inside leaf]
    · rw [linked.leafCount_eq inside, if_neg leaf] at positive ⊢
      exact if_neg (Nat.ne_of_gt positive)
  -- the table between the two notes
  have own : write (table tree.size (widthsFrom tree (slot + 1))) slot (tree.leafCount slot) =
      .ok (table tree.size fun place => if slot ≤ place then tree.leafCount place
        else ((tree.childrenFrom (slot + 1) place).map tree.leafCount).sum) := by
    apply write_table inside
    · rw [if_pos (Nat.le_refl slot)]
    · intro place _ elsewhere
      rw [widthsFrom]
      exact if_congr (by omega) rfl rfl
  simp only [Columns.widthTurn, read_table inside, ok_bind, leaves, own,
    caller_ofTree linked bounded inside]
  cases made : tree.parent? slot with
  | none =>
      refine congrArg Except.ok (table_congr fun place _ => ?_)
      have other : tree.parent? slot ≠ some place := by simp [made]
      rw [widthsFrom, linked.childrenFrom_of_ne other]
  | some parent =>
      have earlier := (linked.caller made).1
      have within := Nat.lt_trans earlier inside
      simp only [Option.map_some, toNat_slot bounded (Nat.le_of_lt within), read_table within,
        ok_bind, if_neg (Nat.not_le_of_lt earlier)]
      apply write_table within
      · rw [widthsFrom, if_neg (Nat.not_le_of_lt earlier), linked.childrenFrom_of_parent made,
          List.map_cons, List.sum_cons, Nat.add_comm]
      · intro place _ elsewhere
        rw [widthsFrom, linked.childrenFrom_of_ne (CallTree.parent?_ne made elsewhere)]

/-- The first sweep counts the leaves below every call. -/
theorem foldlM_widthTurn_ofTree (linked : tree.Linked) (bounded : tree.size ≤ CallTree.capacity) :
    (List.range tree.size).reverse.foldlM (ofTree tree).widthTurn (Array.replicate tree.size 0) =
      .ok (table tree.size tree.leafCount) := by
  have start : Array.replicate tree.size 0 = table tree.size (widthsFrom tree tree.size) := by
    rw [replicate_eq_table]
    apply table_congr
    intro place inside
    rw [widthsFrom, if_neg (Nat.not_le_of_lt inside), linked.childrenFrom_size]
    rfl
  rw [start, foldlM_reverse_range_eq_ok (fun slot => table tree.size (widthsFrom tree slot))
    fun slot inside => widthTurn_ofTree linked bounded inside]
  exact congrArg Except.ok (table_congr fun place _ => if_pos (Nat.zero_le place))

/-- Where the calls in front of a slot begin, and where they let their next child begin. -/
def startsBefore (tree : CallTree) (slot : Nat) : Columns.Starts where
  starts := table tree.size fun place => if place < slot then tree.rangeStart place else 0
  cursors := table tree.size fun place =>
    if place < slot then
      tree.rangeStart place + ((tree.childrenBefore slot place).map tree.leafCount).sum
    else 0

theorem startTurn_ofTree (linked : tree.Linked) (bounded : tree.size ≤ CallTree.capacity)
    (inside : slot < tree.size) (below : 0 < slot) :
    (ofTree tree).startTurn (table tree.size tree.leafCount) (startsBefore tree slot) slot =
      .ok (startsBefore tree (slot + 1)) := by
  obtain ⟨parent, made⟩ := linked.exists_parent below inside
  have earlier := (linked.caller made).1
  have within := Nat.lt_trans earlier inside
  have start := linked.rangeStart_eq made
  have starts : write (startsBefore tree slot).starts slot (tree.rangeStart slot) =
      .ok (startsBefore tree (slot + 1)).starts := by
    apply write_table inside
    · rw [if_pos (Nat.lt_succ_self slot)]
    · intro place _ elsewhere
      exact if_congr (by omega) rfl rfl
  -- the cursors before the new call has its own
  have siblings : write (startsBefore tree slot).cursors parent
      (tree.rangeStart slot + tree.leafCount slot) =
        .ok (table tree.size fun place =>
          if place < slot then
            tree.rangeStart place + ((tree.childrenBefore (slot + 1) place).map tree.leafCount).sum
          else 0) := by
    apply write_table within
    · rw [if_pos earlier, linked.childrenBefore_succ_of_parent made, start]
      simp [Nat.add_assoc]
    · intro place _ elsewhere
      rw [linked.childrenBefore_succ_of_ne (CallTree.parent?_ne made elsewhere)]
  have cursors : write (table tree.size fun place =>
      if place < slot then
        tree.rangeStart place + ((tree.childrenBefore (slot + 1) place).map tree.leafCount).sum
      else 0) slot (tree.rangeStart slot) = .ok (startsBefore tree (slot + 1)).cursors := by
    apply write_table inside
    · rw [if_pos (Nat.lt_succ_self slot), linked.childrenBefore_succ, List.map_nil, List.sum_nil,
        Nat.add_zero]
    · intro place _ elsewhere
      exact if_congr (by omega) rfl rfl
  have cursor : read (startsBefore tree slot).cursors parent = .ok (tree.rangeStart slot) := by
    rw [startsBefore, read_table within, if_pos earlier, start]
  simp only [Columns.startTurn, caller_ofTree linked bounded inside, made, Option.map_some, ok_bind,
    toNat_slot bounded (Nat.le_of_lt within), cursor, starts, read_table inside, siblings, cursors,
    pure_eq_ok]

/-- The second sweep finds where every call begins. -/
theorem foldlM_startTurn_ofTree (linked : tree.Linked) (bounded : tree.size ≤ CallTree.capacity)
    (nonempty : 0 < tree.size) :
    (List.range (tree.size - 1)).foldlM
        (fun state before =>
          (ofTree tree).startTurn (table tree.size tree.leafCount) state (before + 1))
        { starts := Array.replicate tree.size 0, cursors := Array.replicate tree.size 0 } =
      .ok (startsBefore tree tree.size) := by
  have start : { starts := Array.replicate tree.size 0, cursors := Array.replicate tree.size 0 } =
      startsBefore tree 1 := by
    have root (entry : Nat → Nat) (zero : entry 0 = 0) : Array.replicate tree.size 0 =
        table tree.size fun place => if place < 1 then entry place else 0 := by
      rw [replicate_eq_table]
      apply table_congr
      intro place _
      split
      · rename_i first
        rw [Nat.lt_one_iff.mp first, zero]
      · rfl
    rw [startsBefore, ← root _ linked.rangeStart_zero, ← root]
    simp [linked.rangeStart_zero, linked.childrenBefore_succ]
  rw [start, foldlM_range_eq_ok (fun before => startsBefore tree (before + 1)) fun before inside =>
    startTurn_ofTree linked bounded (by omega) (Nat.succ_pos before), Nat.sub_add_cancel nonempty]

/-- Where a call stands before the root is made the origin. -/
def centreAt (tree : CallTree) (slot : Nat) : α :=
  (tree.rangeCentres : Array α).getD slot (Coordinate.ofNat 0)

theorem centreAt_eq (linked : tree.Linked) (inside : slot < tree.size) :
    (centreAt tree slot : α) =
      if tree.children slot = [] then
        Coordinate.ofNat (tree.rangeStart slot) + Coordinate.ofNat 1 / Coordinate.ofNat 2
      else CallTree.mean ((tree.children slot).map (centreAt tree)) := by
  have centred : (centreAt tree slot : α) =
      if ((tree.children slot).map (centreAt tree : Nat → α)).isEmpty then
        Coordinate.ofNat (tree.rangeStart slot) + Coordinate.ofNat 1 / Coordinate.ofNat 2
      else CallTree.mean ((tree.children slot).map (centreAt tree)) := linked.getD_sweepUp inside
  rw [centred]
  simp only [List.isEmpty_map, List.isEmpty_iff]

/-- The coordinates from a slot on, and what they are for callers. -/
def centresFrom (tree : CallTree) (slot : Nat) : Columns.Centres α where
  centres := table tree.size fun place =>
    if slot ≤ place then centreAt tree place else Coordinate.ofNat 0
  sums := table tree.size fun place =>
    ((tree.childrenFrom slot place).map (centreAt tree)).foldr
      (fun coordinate sum => sum + coordinate) (Coordinate.ofNat 0)
  counts := table tree.size fun place => .ofNat (tree.childrenFrom slot place).length

theorem centre_ofTree (linked : tree.Linked) (bounded : tree.size ≤ CallTree.capacity)
    (inside : slot < tree.size) :
    Columns.centre (table tree.size tree.rangeStart)
        (centresFrom tree (slot + 1) : Columns.Centres α) slot =
      .ok (centreAt tree slot) := by
  have word := toNat_slot bounded (linked.length_children_le slot)
  rw [centreAt_eq linked inside]
  simp only [Columns.centre, centresFrom, read_table inside, ok_bind, linked.childrenFrom_succ,
    word]
  by_cases leaf : tree.children slot = []
  · simp [leaf]
  · have counted : UInt32.ofNat (tree.children slot).length ≠ 0 := by
      intro zero
      rw [zero] at word
      exact leaf (List.eq_nil_of_length_eq_zero word.symm)
    simp [leaf, counted, CallTree.mean]

theorem centreTurn_ofTree (linked : tree.Linked) (bounded : tree.size ≤ CallTree.capacity)
    (inside : slot < tree.size) :
    (ofTree tree).centreTurn (table tree.size tree.rangeStart)
        (centresFrom tree (slot + 1) : Columns.Centres α) slot =
      .ok (centresFrom tree slot) := by
  have placed : write (centresFrom tree (slot + 1) : Columns.Centres α).centres slot
      (centreAt tree slot) = .ok (centresFrom tree slot : Columns.Centres α).centres := by
    apply write_table inside
    · rw [if_pos (Nat.le_refl slot)]
    · intro place _ elsewhere
      exact if_congr (by omega) rfl rfl
  simp only [Columns.centreTurn, centre_ofTree linked bounded inside, ok_bind, placed,
    caller_ofTree linked bounded inside]
  cases made : tree.parent? slot with
  | none =>
      have unlinked (place : Nat) :
          tree.childrenFrom slot place = tree.childrenFrom (slot + 1) place :=
        linked.childrenFrom_of_ne (by simp [made])
      simp [centresFrom, unlinked]
  | some parent =>
      have earlier := (linked.caller made).1
      have within := Nat.lt_trans earlier inside
      have others {place : Nat} (elsewhere : place ≠ parent) :
          tree.childrenFrom slot place = tree.childrenFrom (slot + 1) place :=
        linked.childrenFrom_of_ne (CallTree.parent?_ne made elsewhere)
      have more := linked.childrenFrom_of_parent made
      have few : (tree.childrenFrom (slot + 1) parent).length + 1 < UInt32.size := by
        have sized : (tree.childrenFrom slot parent).length ≤ tree.size :=
          Nat.le_trans (List.length_filter_le _ _) (linked.length_children_le parent)
        rw [more, List.length_cons] at sized
        exact Nat.lt_of_le_of_lt (Nat.le_trans sized bounded) (by decide)
      have sums : write (centresFrom tree (slot + 1) : Columns.Centres α).sums parent
          (((tree.childrenFrom (slot + 1) parent).map (centreAt tree)).foldr
            (fun coordinate sum => sum + coordinate) (Coordinate.ofNat 0) + centreAt tree slot) =
            .ok (centresFrom tree slot : Columns.Centres α).sums := by
        apply write_table within
        · rw [more, List.map_cons, List.foldr_cons]
        · intro place _ elsewhere
          rw [others elsewhere]
      have counts : write (centresFrom tree (slot + 1) : Columns.Centres α).counts parent
          (.ofNat ((tree.childrenFrom (slot + 1) parent).length + 1)) =
            .ok (centresFrom tree slot : Columns.Centres α).counts := by
        apply write_table within
        · rw [more, List.length_cons]
        · intro place _ elsewhere
          rw [others elsewhere]
      have sum : read (centresFrom tree (slot + 1) : Columns.Centres α).sums parent =
          .ok (((tree.childrenFrom (slot + 1) parent).map (centreAt tree)).foldr
            (fun coordinate sum => sum + coordinate) (Coordinate.ofNat 0)) := read_table within
      have count : read (centresFrom tree (slot + 1) : Columns.Centres α).counts parent =
          .ok (.ofNat (tree.childrenFrom (slot + 1) parent).length) := read_table within
      simp only [Option.map_some, toNat_slot bounded (Nat.le_of_lt within), sum, sums, count,
        add_one few, counts, ok_bind, pure_eq_ok]

/-- The third sweep places every call. -/
theorem foldlM_centreTurn_ofTree (linked : tree.Linked) (bounded : tree.size ≤ CallTree.capacity) :
    (List.range tree.size).reverse.foldlM
        ((ofTree tree).centreTurn (table tree.size tree.rangeStart))
        { centres := Array.replicate tree.size (Coordinate.ofNat 0 : α)
          sums := Array.replicate tree.size (Coordinate.ofNat 0)
          counts := Array.replicate tree.size 0 } =
      .ok (centresFrom tree 0) := by
  have start : { centres := Array.replicate tree.size (Coordinate.ofNat 0 : α)
                 sums := Array.replicate tree.size (Coordinate.ofNat 0)
                 counts := Array.replicate tree.size 0 } = centresFrom tree tree.size := by
    have none : (table tree.size fun _ => Coordinate.ofNat 0 : Array α) =
        table tree.size fun place =>
          if tree.size ≤ place then centreAt tree place else Coordinate.ofNat 0 :=
      table_congr fun place inside => (if_neg (Nat.not_le_of_lt inside)).symm
    rw [centresFrom, ← none]
    simp [linked.childrenFrom_size, replicate_eq_table]
  rw [start, foldlM_reverse_range_eq_ok (centresFrom tree) fun slot inside =>
    centreTurn_ofTree linked bounded inside]

theorem centredSlots_ofTree (linked : tree.Linked) (bounded : tree.size ≤ CallTree.capacity) :
    (ofTree tree).centredSlots = .ok (tree.centredSlots : Array α) := by
  have len := toNat_len bounded
  have sized : (tree.rangeCentres : Array α).size = tree.size := tree.size_sweepUp _ _
  rw [Columns.centredSlots, len]
  by_cases empty : tree.size = 0
  · have none : (tree.centredSlots : Array α) = #[] :=
      Array.eq_empty_of_size_eq_zero ((tree.size_slots .centred).trans empty)
    rw [if_pos empty, none]
    rfl
  · have nonempty := Nat.pos_of_ne_zero empty
    have starts : (startsBefore tree tree.size).starts = table tree.size tree.rangeStart :=
      table_congr fun place inside => if_pos inside
    have centres : (centresFrom tree 0 : Columns.Centres α).centres = tree.rangeCentres := by
      rw [eq_table (Coordinate.ofNat 0) sized]
      exact table_congr fun place _ => if_pos (Nat.zero_le place)
    have origin : read (tree.rangeCentres : Array α) 0 = .ok (centreAt tree 0) := by
      apply read_eq_ok
      rw [centreAt, Array.getD_eq_getD_getElem?, Array.getElem?_eq_getElem (sized ▸ nonempty),
        Option.getD_some]
    simp only [if_neg empty, foldlM_widthTurn_ofTree linked bounded, ok_bind,
      foldlM_startTurn_ofTree linked bounded nonempty, starts,
      foldlM_centreTurn_ofTree linked bounded, centres, origin]
    rfl

theorem slots_ofTree (linked : tree.Linked) (bounded : tree.size ≤ CallTree.capacity)
    (placement : Placement) :
    (ofTree tree).slots placement = .ok (placement.slots tree : Array α) := by
  cases placement with
  | grid => exact gridSlots_ofTree linked bounded
  | centred => exact centredSlots_ofTree linked bounded

end Centred

end Unfolding.Words
