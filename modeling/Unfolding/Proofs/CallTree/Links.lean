import Unfolding.CallTree.Repetition
import Mathlib.Data.List.Nodup

/-!
Calls know their caller and the calls that they make.  The two agree in every
tree that was built by adding calls, whatever the order and whichever edits
were refused on the way.
-/

namespace Unfolding

namespace CallTree

/-- The slot of the caller of the call in a slot. -/
def parent? (tree : CallTree) (slot : Nat) : Option Nat := tree.calls[slot]?.bind Call.parent

def level? (tree : CallTree) (slot : Nat) : Option Nat := tree.calls[slot]?.map Call.level

/-- The slots of the calls that name a call as their caller. -/
def callees (tree : CallTree) (slot : Nat) : List Nat :=
  (List.range tree.size).filter fun child => tree.parent? child = some slot

/-- Callers, callees and levels of a tree agree. -/
structure Linked (tree : CallTree) : Prop where
  root : ∀ {slot : Nat}, slot < tree.size → tree.parent? slot = none →
    slot = 0 ∧ tree.level? slot = some 0
  caller : ∀ {slot parent : Nat}, tree.parent? slot = some parent →
    parent < slot ∧ tree.level? slot = (tree.level? parent).map (· + 1)
  children : ∀ slot, tree.children slot = tree.callees slot

theorem lt_size_iff {tree : CallTree} {slot : Nat} :
    slot < tree.size ↔ ∃ call, tree.calls[slot]? = some call := by
  constructor
  · intro inside
    exact ⟨_, Array.getElem?_eq_getElem inside⟩
  · rintro ⟨call, found⟩
    exact (Array.getElem?_eq_some_iff.mp found).1

theorem lt_size_of_parent? {tree : CallTree} {slot parent : Nat}
    (made : tree.parent? slot = some parent) : slot < tree.size := by
  obtain ⟨call, found, -⟩ := Option.bind_eq_some_iff.mp made
  exact lt_size_iff.mpr ⟨call, found⟩

theorem lt_size_of_level? {tree : CallTree} {slot level : Nat}
    (here : tree.level? slot = some level) : slot < tree.size := by
  obtain ⟨call, found, -⟩ := Option.map_eq_some_iff.mp here
  exact lt_size_iff.mpr ⟨call, found⟩

theorem mem_callees_iff {tree : CallTree} {slot child : Nat} :
    child ∈ tree.callees slot ↔ tree.parent? child = some slot := by
  rw [callees, List.mem_filter, List.mem_range, decide_eq_true_iff, and_iff_right_iff_imp]
  exact lt_size_of_parent?

theorem pairwise_callees (tree : CallTree) (slot : Nat) :
    (tree.callees slot).Pairwise (· < ·) :=
  List.pairwise_lt_range.sublist List.filter_sublist

/-! ### What an addition does -/

section Additions

variable {tree result : CallTree} {id : String} {argument : Float} {isBase : Bool} {parent : Nat}

theorem exists_of_addRoot (added : tree.addRoot id argument isBase = .ok result) :
    tree.calls = #[] ∧
      result.calls = #[{ id, argument, level := 0, isBase, parent := none }] := by
  unfold addRoot append at added
  by_cases empty : tree.size = 0
  · have noCalls : tree.calls = #[] := Array.eq_empty_of_size_eq_zero empty
    rw [if_pos empty, noCalls] at added
    split at added
    · cases added
      exact ⟨noCalls, rfl⟩
    · cases added
  · rw [if_neg empty] at added
    cases added

/-- The new call stands behind the others, and of these only its caller changes. -/
theorem getElem?_of_addChild (added : tree.addChild parent id argument isBase = .ok result) :
    ∃ caller, tree.calls[parent]? = some caller ∧ ∀ slot, result.calls[slot]? =
      if slot = tree.size then
        some { id, argument, level := caller.level + 1, isBase, parent := some parent }
      else if slot = parent then
        some { caller with children := caller.children.push tree.size }
      else tree.calls[slot]? := by
  cases found : tree.calls[parent]? with
  | none =>
      rw [addChild, found] at added
      cases added
  | some caller =>
      by_cases room : tree.size < capacity
      · rw [addChild_of_room found room] at added
        cases added
        refine ⟨caller, rfl, fun slot => ?_⟩
        have inside : parent < tree.size := lt_size_iff.mpr ⟨caller, found⟩
        rw [getElem?_calls_link, Array.getElem?_push]
        by_cases here : slot = parent
        · subst here
          have old : slot ≠ tree.calls.size := Nat.ne_of_lt inside
          rw [if_pos rfl, if_neg old, if_neg (Nat.ne_of_lt inside), if_pos rfl, found,
            Option.map_some]
        · rw [if_neg (Ne.symm here), if_neg here]
          rfl
      · simp [addChild, append, found, room] at added

/-! An addition changes nothing but the calls. -/

theorem eq_of_addRoot (added : tree.addRoot id argument isBase = .ok result) :
    result = { tree with calls := result.calls } := by
  unfold addRoot append at added
  split at added
  · split at added <;> cases added
    rfl
  · cases added

theorem eq_of_addChild (added : tree.addChild parent id argument isBase = .ok result) :
    result = { tree with calls := result.calls } := by
  unfold addChild append at added
  split at added
  · cases added
  · by_cases room : tree.size < capacity
    · simp only [if_pos room] at added
      cases added
      rfl
    · simp only [if_neg room] at added
      cases added

theorem family_of_addRoot (added : tree.addRoot id argument isBase = .ok result) :
    result.family = tree.family :=
  (congrArg CallTree.family (eq_of_addRoot added) :)

theorem family_of_addChild (added : tree.addChild parent id argument isBase = .ok result) :
    result.family = tree.family :=
  (congrArg CallTree.family (eq_of_addChild added) :)

theorem size_le_of_append {call : Call} (appended : tree.append call = .ok result) :
    result.size ≤ capacity := by
  rw [size_append appended]
  unfold append at appended
  split at appended
  · rename_i room
    exact room
  · cases appended

theorem size_le_of_addRoot (added : tree.addRoot id argument isBase = .ok result) :
    result.size ≤ capacity := by
  unfold addRoot at added
  split at added
  · exact size_le_of_append added
  · cases added

theorem size_le_of_addChild (added : tree.addChild parent id argument isBase = .ok result) :
    result.size ≤ capacity := by
  unfold addChild at added
  split at added
  · cases added
  · dsimp only at added
    split at added
    · cases added
    · rename_i extended appended
      cases added
      rw [size_link]
      exact size_le_of_append appended

/-- What a call says, apart from the calls that it makes, is not changed by additions. -/
theorem bind_of_addChild {β : Type} (added : tree.addChild parent id argument isBase = .ok result)
    (read : Call → Option β) (unlinked : ∀ call children, read { call with children } = read call) :
    ∃ caller, tree.calls[parent]? = some caller ∧ ∀ slot, result.calls[slot]?.bind read =
      if slot = tree.size then
        read { id, argument, level := caller.level + 1, isBase, parent := some parent }
      else tree.calls[slot]?.bind read := by
  obtain ⟨caller, found, calls⟩ := getElem?_of_addChild added
  refine ⟨caller, found, fun slot => ?_⟩
  rw [calls]
  by_cases last : slot = tree.size
  · rw [if_pos last, if_pos last, Option.bind_some]
  · rw [if_neg last, if_neg last]
    by_cases here : slot = parent
    · rw [if_pos here, here, found, Option.bind_some, Option.bind_some, unlinked]
    · rw [if_neg here]

theorem parent?_of_addChild (added : tree.addChild parent id argument isBase = .ok result)
    (slot : Nat) :
    result.parent? slot = if slot = tree.size then some parent else tree.parent? slot := by
  obtain ⟨caller, -, kept⟩ := bind_of_addChild added Call.parent fun _ _ => rfl
  exact kept slot

theorem level?_of_addChild (added : tree.addChild parent id argument isBase = .ok result)
    (slot : Nat) :
    result.level? slot =
      if slot = tree.size then (tree.level? parent).map (· + 1) else tree.level? slot := by
  obtain ⟨caller, found, kept⟩ := bind_of_addChild added (some ∘ Call.level) fun _ _ => rfl
  rw [level?, level?, level?, found, Option.map_some, Option.map_some, Option.map_eq_bind,
    Option.map_eq_bind]
  exact kept slot

theorem children_of_addChild (added : tree.addChild parent id argument isBase = .ok result)
    (slot : Nat) :
    result.children slot = tree.children slot ++ if slot = parent then [tree.size] else [] := by
  obtain ⟨caller, found, calls⟩ := getElem?_of_addChild added
  rw [children, children, calls]
  by_cases last : slot = tree.size
  · have outside : tree.calls[slot]? = none := Array.getElem?_eq_none (Nat.le_of_eq last.symm)
    have notCaller : slot ≠ parent := by
      rintro rfl
      rw [outside] at found
      cases found
    rw [if_pos last, outside, if_neg notCaller]
    rfl
  · rw [if_neg last]
    by_cases here : slot = parent
    · rw [if_pos here, here, found, if_pos rfl]
      exact Array.toList_push
    · rw [if_neg here, if_neg here, List.append_nil]

theorem callees_of_addChild (added : tree.addChild parent id argument isBase = .ok result)
    (slot : Nat) :
    result.callees slot = tree.callees slot ++ if slot = parent then [tree.size] else [] := by
  have old : (List.range tree.size).filter (fun child => result.parent? child = some slot) =
      tree.callees slot := by
    apply List.filter_congr
    intro child member
    rw [parent?_of_addChild added, if_neg (Nat.ne_of_lt (List.mem_range.mp member))]
  rw [callees, size_addChild added, List.range_succ, List.filter_append, old]
  by_cases here : slot = parent
  · simp [parent?_of_addChild added, here]
  · simp [parent?_of_addChild added, here, Ne.symm here]

end Additions

theorem exists_noteRepeats (counts : Std.TreeMap UInt64 Nat) (call : Call) :
    ∃ repeats, noteRepeats counts call = { call with repeats } := by
  unfold noteRepeats
  dsimp only
  split
  · exact ⟨_, rfl⟩
  · exact ⟨call.repeats, rfl⟩

/-- The marks are of no concern to callers, levels and children. -/
theorem views_markRepeats (tree : CallTree) :
    tree.markRepeats.1.parent? = tree.parent? ∧ tree.markRepeats.1.level? = tree.level? ∧
      tree.markRepeats.1.children = tree.children := by
  have marked (slot : Nat) : tree.markRepeats.1.calls[slot]? =
      tree.calls[slot]?.map (noteRepeats tree.argumentCounts) := Array.getElem?_map
  refine ⟨?_, ?_, ?_⟩
  all_goals
    funext slot
    simp only [parent?, level?, children, marked]
    cases tree.calls[slot]? with
    | none => rfl
    | some call =>
        obtain ⟨repeats, same⟩ := exists_noteRepeats tree.argumentCounts call
        simp [same]

/-! ### Links are kept -/

namespace Linked

variable {tree result : CallTree} {id : String} {argument : Float} {isBase : Bool} {parent : Nat}

/-- Links are what can be seen of a tree by asking for sizes, callers, levels and children. -/
theorem of_views (linked : tree.Linked) (size : result.size = tree.size)
    (parents : result.parent? = tree.parent?) (levels : result.level? = tree.level?)
    (children : result.children = tree.children) : result.Linked where
  root := by
    rw [size, parents, levels]
    exact linked.root
  caller := by
    rw [parents, levels]
    exact linked.caller
  children := by
    intro slot
    rw [children, linked.children slot, callees, callees, size, parents]

theorem of_calls_eq (linked : tree.Linked) (same : result.calls = tree.calls) : result.Linked := by
  apply linked.of_views
  · rw [size, size, same]
  · funext slot
    rw [parent?, parent?, same]
  · funext slot
    rw [level?, level?, same]
  · funext slot
    rw [CallTree.children, CallTree.children, same]

theorem of_empty (empty : tree.calls = #[]) : tree.Linked where
  root inside := by simp [size, empty] at inside
  caller made := by simp [parent?, empty] at made
  children slot := by simp [CallTree.children, callees, size, empty]

theorem mem_children_iff (linked : tree.Linked) {slot child : Nat} :
    child ∈ tree.children slot ↔ tree.parent? child = some slot := by
  rw [linked.children, mem_callees_iff]

theorem parent?_eq_none_of_eq_zero (linked : tree.Linked) {slot : Nat} (first : slot = 0) :
    tree.parent? slot = none := by
  cases made : tree.parent? slot with
  | none => rfl
  | some parent =>
      have earlier := (linked.caller made).1
      omega

theorem exists_parent (linked : tree.Linked) {slot : Nat} (notRoot : 0 < slot)
    (inside : slot < tree.size) : ∃ parent, tree.parent? slot = some parent := by
  cases made : tree.parent? slot with
  | none =>
      obtain ⟨rfl, -⟩ := linked.root inside made
      exact absurd notRoot (Nat.lt_irrefl 0)
  | some parent => exact ⟨parent, rfl⟩

theorem exists_caller (linked : tree.Linked) {slot : Nat} {call : Call} (notRoot : 0 < slot)
    (found : tree.calls[slot]? = some call) :
    ∃ parent caller, call.parent = some parent ∧ parent < slot ∧
      tree.calls[parent]? = some caller ∧ call.level = caller.level + 1 := by
  obtain ⟨parent, made⟩ := linked.exists_parent notRoot (lt_size_iff.mpr ⟨call, found⟩)
  obtain ⟨earlier, levels⟩ := linked.caller made
  rw [parent?, found, Option.bind_some] at made
  rw [level?, found, Option.map_some] at levels
  obtain ⟨_, above, next⟩ := Option.map_eq_some_iff.mp levels.symm
  obtain ⟨caller, callerFound, rfl⟩ := Option.map_eq_some_iff.mp above
  exact ⟨parent, caller, made, earlier, callerFound, next.symm⟩

theorem addRoot (added : tree.addRoot id argument isBase = .ok result) : result.Linked := by
  obtain ⟨-, single⟩ := exists_of_addRoot added
  have rootless (slot : Nat) : result.parent? slot = none := by
    rw [parent?, single]
    cases slot <;> simp
  refine ⟨?_, ?_, ?_⟩
  · intro slot inside _
    obtain rfl : slot = 0 := by
      rw [size, single] at inside
      exact Nat.lt_one_iff.mp inside
    exact ⟨rfl, by simp [level?, single]⟩
  · intro slot parent made
    rw [rootless] at made
    cases made
  · intro slot
    have alone : result.callees slot = [] := by simp [callees, rootless]
    rw [alone, CallTree.children, single]
    cases slot <;> simp

theorem addChild (linked : tree.Linked)
    (added : tree.addChild parent id argument isBase = .ok result) : result.Linked := by
  obtain ⟨caller, found, -⟩ := getElem?_of_addChild added
  have inside : parent < tree.size := lt_size_iff.mpr ⟨caller, found⟩
  refine ⟨?_, ?_, ?_⟩
  · intro slot within none
    rw [parent?_of_addChild added] at none
    by_cases last : slot = tree.size
    · rw [if_pos last] at none
      cases none
    · rw [if_neg last] at none
      rw [level?_of_addChild added, if_neg last]
      rw [size_addChild added] at within
      exact linked.root (Nat.lt_of_le_of_ne (Nat.le_of_lt_succ within) last) none
  · intro slot other made
    rw [parent?_of_addChild added] at made
    rw [level?_of_addChild added, level?_of_addChild added]
    by_cases last : slot = tree.size
    · rw [if_pos last] at made
      cases made
      rw [if_pos last, if_neg (Nat.ne_of_lt inside), last]
      exact ⟨inside, rfl⟩
    · rw [if_neg last] at made
      obtain ⟨earlier, levels⟩ := linked.caller made
      have old : other ≠ tree.size :=
        Nat.ne_of_lt (Nat.lt_trans earlier (lt_size_of_parent? made))
      rw [if_neg last, if_neg old]
      exact ⟨earlier, levels⟩
  · intro slot
    rw [children_of_addChild added, callees_of_addChild added, linked.children]

theorem markRepeats (linked : tree.Linked) : tree.markRepeats.1.Linked := by
  obtain ⟨parents, levels, children⟩ := tree.views_markRepeats
  exact linked.of_views Array.size_map parents levels children

end Linked

/-! ### Histories -/

inductive Edit where
  | addRoot (id : String) (argument : Float) (isBase : Bool)
  | addChild (parent : Nat) (id : String) (argument : Float) (isBase : Bool)
  | markRepeats

def edit (tree : CallTree) : Edit → Except Fault CallTree
  | .addRoot id argument isBase => tree.addRoot id argument isBase
  | .addChild parent id argument isBase => tree.addChild parent id argument isBase
  | .markRepeats => .ok tree.markRepeats.1

/-- A refused edit leaves the tree as it was. -/
def attempt (tree : CallTree) (change : Edit) : CallTree :=
  match tree.edit change with
  | .ok result => result
  | .error _ => tree

/-- The tree after a history of edits, whether they were refused or not. -/
def attemptAll (tree : CallTree) (changes : List Edit) : CallTree := changes.foldl attempt tree

/-- Why an edit is refused, if it is. -/
def refusal? (tree : CallTree) : Edit → Option Misuse
  | .addRoot .. => if tree.size = 0 then none else some .rootTaken
  | .addChild parent .. =>
      if tree.size ≤ parent then some (.slotOutOfRange parent tree.size)
      else if tree.size < capacity then none
      else some .treeFull
  | .markRepeats => none

theorem edit_eq_error_iff {tree : CallTree} {change : Edit} {fault : Fault} :
    tree.edit change = .error fault ↔
      ∃ misuse, tree.refusal? change = some misuse ∧ fault = .misuse misuse := by
  cases change with
  | addRoot id argument isBase =>
      by_cases empty : tree.size = 0
      · have room : 0 < capacity := by decide
        simp [edit, CallTree.addRoot, append, refusal?, empty, room]
      · simp [edit, CallTree.addRoot, refusal?, empty, eq_comm]
  | addChild parent id argument isBase =>
      by_cases outside : tree.size ≤ parent
      · have none : tree.calls[parent]? = none := Array.getElem?_eq_none outside
        simp [edit, CallTree.addChild, refusal?, outside, none, eq_comm]
      · obtain ⟨caller, found⟩ := lt_size_iff.mp (Nat.lt_of_not_le outside)
        by_cases room : tree.size < capacity
        · simp [edit, CallTree.addChild, append, refusal?, outside, found, room]
        · simp [edit, CallTree.addChild, append, refusal?, outside, found, room, eq_comm]
  | markRepeats => simp [edit, refusal?]

/-- What every edit keeps holds after a history. -/
theorem attemptAll_keeps {Holds : CallTree → Prop}
    (kept : ∀ {tree result : CallTree} {change : Edit}, Holds tree →
      tree.edit change = .ok result → Holds result)
    {tree : CallTree} (holds : Holds tree) (changes : List Edit) :
    Holds (tree.attemptAll changes) := by
  induction changes generalizing tree with
  | nil => exact holds
  | cons change changes inductionHypothesis =>
      apply inductionHypothesis
      unfold attempt
      cases changed : tree.edit change with
      | error fault => exact holds
      | ok result => exact kept holds changed

theorem Linked.edit {tree result : CallTree} {change : Edit} (linked : tree.Linked)
    (changed : tree.edit change = .ok result) : result.Linked := by
  cases change with
  | addRoot id argument isBase => exact .addRoot changed
  | addChild parent id argument isBase => exact linked.addChild changed
  | markRepeats =>
      cases changed
      exact linked.markRepeats

theorem Linked.attemptAll {tree : CallTree} (linked : tree.Linked) (changes : List Edit) :
    (tree.attemptAll changes).Linked :=
  attemptAll_keeps Linked.edit linked changes

theorem size_le_of_edit {tree result : CallTree} {change : Edit} (bounded : tree.size ≤ capacity)
    (changed : tree.edit change = .ok result) : result.size ≤ capacity := by
  cases change with
  | addRoot id argument isBase => exact size_le_of_addRoot changed
  | addChild parent id argument isBase => exact size_le_of_addChild changed
  | markRepeats =>
      cases changed
      have sized : tree.markRepeats.1.size = tree.size := Array.size_map
      rw [sized]
      exact bounded

theorem size_attemptAll_le {tree : CallTree} (bounded : tree.size ≤ capacity)
    (changes : List Edit) : (tree.attemptAll changes).size ≤ capacity :=
  attemptAll_keeps size_le_of_edit bounded changes

end CallTree

end Unfolding
