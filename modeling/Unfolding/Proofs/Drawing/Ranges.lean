import Unfolding.Drawing.Slots
import Unfolding.Proofs.CallTree.Levels

/-!
Ranges of calls in centred drawings.

A sweep from the last slot to the first knows the values of all children when it
comes to a call, since callers stand in front of their calls.  So the number of
leaves below a call is the sum of those below its children, and the range of a
call is divided among its children from left to right.
-/

namespace Unfolding

namespace CallTree

variable {β : Type} {tree : CallTree}

theorem Linked.lt_of_mem_children (linked : tree.Linked) {slot child : Nat}
    (member : child ∈ tree.children slot) : slot < child ∧ child < tree.size := by
  rw [linked.children, mem_callees_iff] at member
  exact ⟨(linked.caller member).1, lt_size_of_parent? member⟩

/-- Induction from the leaves to the root. -/
theorem Linked.upward (linked : tree.Linked) {Holds : Nat → Prop}
    (step : ∀ slot < tree.size, (∀ child ∈ tree.children slot, Holds child) → Holds slot)
    {slot : Nat} (inside : slot < tree.size) : Holds slot := by
  induction left : tree.size - slot using Nat.strong_induction_on generalizing slot with
  | _ left inductionHypothesis =>
      apply step slot inside
      intro child member
      obtain ⟨later, childInside⟩ := linked.lt_of_mem_children member
      exact inductionHypothesis (tree.size - child) (by omega) childInside rfl

theorem range_eq_append_cons {slot count : Nat} (inside : slot < count) :
    ∃ rest, List.range count = List.range slot ++ slot :: rest ∧ ∀ later ∈ rest, slot < later := by
  obtain ⟨more, rfl⟩ := Nat.exists_eq_add_of_lt inside
  refine ⟨((List.range more).map Nat.succ).map (slot + ·), ?_, ?_⟩
  · rw [Nat.add_assoc, List.range_add, List.range_succ_eq_map, List.map_cons]
    rfl
  · intro later member
    simp only [List.map_map, List.mem_map, Function.comp_apply] at member
    omega

/-! ### Sweeps from the leaves -/

section Upward

variable {unknown : β} {value : Nat → List β → β}

def sweepStep (tree : CallTree) (unknown : β) (value : Nat → List β → β) (slot : Nat)
    (values : Array β) : Array β :=
  values.setIfInBounds slot
    (value slot ((tree.children slot).map fun child => values.getD child unknown))

theorem size_foldr_sweepStep (slots : List Nat) (values : Array β) :
    (slots.foldr (tree.sweepStep unknown value) values).size = values.size := by
  induction slots with
  | nil => rfl
  | cons slot slots inductionHypothesis =>
      rw [List.foldr_cons, sweepStep, Array.size_setIfInBounds, inductionHypothesis]

theorem getD_sweepStep_of_ne {slot other : Nat} (ne : slot ≠ other) (values : Array β) :
    (tree.sweepStep unknown value slot values).getD other unknown = values.getD other unknown := by
  rw [sweepStep, Array.getD_eq_getD_getElem?, Array.getElem?_setIfInBounds_ne ne,
    Array.getD_eq_getD_getElem?]

theorem getD_foldr_sweepStep {slots : List Nat} {other : Nat} (absent : other ∉ slots)
    (values : Array β) :
    (slots.foldr (tree.sweepStep unknown value) values).getD other unknown =
      values.getD other unknown := by
  induction slots with
  | nil => rfl
  | cons slot slots inductionHypothesis =>
      rw [List.mem_cons, not_or] at absent
      rw [List.foldr_cons, getD_sweepStep_of_ne (Ne.symm absent.1), inductionHypothesis absent.2]

/-- A sweep gives each call the value that it has by the values of its children. -/
theorem Linked.getD_sweepUp (linked : tree.Linked) {slot : Nat} (inside : slot < tree.size) :
    (tree.sweepUp unknown value).getD slot unknown =
      value slot ((tree.children slot).map fun child =>
        (tree.sweepUp unknown value).getD child unknown) := by
  obtain ⟨rest, split, -⟩ := range_eq_append_cons inside
  let below := rest.foldr (tree.sweepStep unknown value) (Array.replicate tree.size unknown)
  -- the slots in front have their turn later, and leave what is behind them as it is
  have kept {other : Nat} (behind : slot ≤ other) :
      (tree.sweepUp unknown value).getD other unknown =
        (tree.sweepStep unknown value slot below).getD other unknown := by
    have absent : other ∉ List.range slot := by
      rw [List.mem_range]
      omega
    change ((List.range tree.size).foldr (tree.sweepStep unknown value) _).getD other unknown = _
    rw [split, List.foldr_append, getD_foldr_sweepStep absent]
    rfl
  have children : ((tree.children slot).map fun child =>
      (tree.sweepUp unknown value).getD child unknown) =
        (tree.children slot).map fun child => below.getD child unknown := by
    apply List.map_congr_left
    intro child member
    have later := (linked.lt_of_mem_children member).1
    rw [kept (Nat.le_of_lt later), getD_sweepStep_of_ne (Nat.ne_of_lt later)]
  have sized : slot < below.size := by
    rw [size_foldr_sweepStep, Array.size_replicate]
    exact inside
  rw [kept (Nat.le_refl slot), children, sweepStep, Array.getD_eq_getD_getElem?,
    Array.getElem?_setIfInBounds_self_of_lt sized]
  rfl

end Upward

/-! ### Numbers of leaves -/

/-- The number of leaves below the call in a slot. -/
def leafCount (tree : CallTree) (slot : Nat) : Nat := tree.leafCounts.getD slot 0

namespace Linked

variable {slot : Nat}

theorem leafCount_eq (linked : tree.Linked) (inside : slot < tree.size) :
    tree.leafCount slot = if tree.children slot = [] then 1
      else ((tree.children slot).map tree.leafCount).sum := by
  have counted : tree.leafCount slot =
      if ((tree.children slot).map tree.leafCount).isEmpty then 1
      else ((tree.children slot).map tree.leafCount).foldl (· + ·) 0 := linked.getD_sweepUp inside
  rw [counted, List.isEmpty_map, List.sum_eq_foldl]
  simp only [List.isEmpty_iff]

theorem leafCount_eq_one (linked : tree.Linked) (inside : slot < tree.size)
    (leaf : tree.children slot = []) : tree.leafCount slot = 1 := by
  rw [linked.leafCount_eq inside, if_pos leaf]

theorem sum_leafCount_le (linked : tree.Linked) (inside : slot < tree.size) :
    ((tree.children slot).map tree.leafCount).sum ≤ tree.leafCount slot := by
  rw [linked.leafCount_eq inside]
  split
  · rename_i leaf
    rw [leaf]
    exact Nat.zero_le 1
  · exact Nat.le_refl _

end Linked

/-! ### Where ranges begin -/

section Starts

variable {widths starts : Array Nat} {cursor : Nat} {children : List Nat}

@[simp]
theorem size_startChildren :
    (startChildren widths cursor children starts).size = starts.size := by
  induction children generalizing cursor starts with
  | nil => rfl
  | cons child children inductionHypothesis =>
      rw [startChildren, inductionHypothesis, Array.size_setIfInBounds]

theorem getD_startChildren_of_not_mem {other : Nat} (absent : other ∉ children) :
    (startChildren widths cursor children starts).getD other 0 = starts.getD other 0 := by
  induction children generalizing cursor starts with
  | nil => rfl
  | cons child children inductionHypothesis =>
      rw [List.mem_cons, not_or] at absent
      rw [startChildren, inductionHypothesis absent.2, Array.getD_eq_getD_getElem?,
        Array.getElem?_setIfInBounds_ne (Ne.symm absent.1), Array.getD_eq_getD_getElem?]

/-- A child begins where those before it end. -/
theorem getD_startChildren {before after : List Nat} {child : Nat} (inside : child < starts.size)
    (last : child ∉ after) :
    (startChildren widths cursor (before ++ child :: after) starts).getD child 0 =
      cursor + (before.map fun slot => widths.getD slot 0).sum := by
  induction before generalizing cursor starts with
  | nil =>
      rw [List.nil_append, startChildren, getD_startChildren_of_not_mem last,
        Array.getD_eq_getD_getElem?, Array.getElem?_setIfInBounds_self_of_lt inside]
      rfl
  | cons first before inductionHypothesis =>
      have sized : child < (starts.setIfInBounds first cursor).size := by simpa using inside
      rw [List.cons_append, startChildren, inductionHypothesis sized, List.map_cons,
        List.sum_cons, Nat.add_assoc]

def startStep (tree : CallTree) (starts : Array Nat) (slot : Nat) : Array Nat :=
  startChildren tree.leafCounts (starts.getD slot 0) (tree.children slot) starts

theorem size_foldl_startStep (slots : List Nat) (starts : Array Nat) :
    (slots.foldl tree.startStep starts).size = starts.size := by
  induction slots generalizing starts with
  | nil => rfl
  | cons slot slots inductionHypothesis =>
      rw [List.foldl_cons, inductionHypothesis, startStep, size_startChildren]

theorem getD_foldl_startStep {slots : List Nat} {other : Nat}
    (absent : ∀ slot ∈ slots, other ∉ tree.children slot) (starts : Array Nat) :
    (slots.foldl tree.startStep starts).getD other 0 = starts.getD other 0 := by
  induction slots generalizing starts with
  | nil => rfl
  | cons slot slots inductionHypothesis =>
      rw [List.forall_mem_cons] at absent
      rw [List.foldl_cons, inductionHypothesis absent.2, startStep,
        getD_startChildren_of_not_mem absent.1]

/-- Where the range of the call in a slot begins. -/
def rangeStart (tree : CallTree) (slot : Nat) : Nat := tree.rangeStarts.getD slot 0

end Starts

namespace Linked

variable {slot child other : Nat}

theorem not_mem_children_of_ne (linked : tree.Linked) (member : child ∈ tree.children slot)
    (ne : slot ≠ other) : child ∉ tree.children other := by
  intro otherMember
  rw [linked.children, mem_callees_iff] at member otherMember
  exact ne (Option.some.inj (member.symm.trans otherMember))

theorem pairwise_children (linked : tree.Linked) (slot : Nat) :
    (tree.children slot).Pairwise (· < ·) := by
  rw [linked.children]
  exact tree.pairwise_callees slot

theorem rangeStart_child (linked : tree.Linked) {before after : List Nat}
    (split : tree.children slot = before ++ child :: after) :
    tree.rangeStart child = tree.rangeStart slot + (before.map tree.leafCount).sum := by
  have member : child ∈ tree.children slot := by simp [split]
  obtain ⟨later, childInside⟩ := linked.lt_of_mem_children member
  obtain ⟨rest, range, behind⟩ := range_eq_append_cons (Nat.lt_trans later childInside)
  let given := (List.range slot).foldl tree.startStep (Array.replicate tree.size 0)
  have starts : tree.rangeStarts = rest.foldl tree.startStep (tree.startStep given slot) := by
    change (List.range tree.size).foldl tree.startStep _ = _
    rw [range, List.foldl_append, List.foldl_cons]
  have sized : child < given.size := by
    rw [size_foldl_startStep, Array.size_replicate]
    exact childInside
  -- no later call is the caller of `slot` or of `child`
  have slotKept : tree.rangeStart slot = given.getD slot 0 := by
    rw [rangeStart, starts, getD_foldl_startStep, startStep, getD_startChildren_of_not_mem]
    · intro made
      exact Nat.lt_irrefl slot (linked.lt_of_mem_children made).1
    · intro other after made
      exact Nat.lt_asymm (behind other after) (linked.lt_of_mem_children made).1
  have childKept : tree.rangeStart child = (tree.startStep given slot).getD child 0 := by
    rw [rangeStart, starts, getD_foldl_startStep]
    intro other after
    exact linked.not_mem_children_of_ne member (Nat.ne_of_lt (behind other after))
  have ordered := linked.pairwise_children slot
  rw [split, List.pairwise_append, List.pairwise_cons] at ordered
  have last : child ∉ after := fun again => Nat.lt_irrefl child (ordered.2.1.1 child again)
  rw [childKept, startStep, split, getD_startChildren sized last, slotKept]
  rfl

/-- The range of a call holds those of its children. -/
theorem range_within (linked : tree.Linked) (member : child ∈ tree.children slot) :
    tree.rangeStart slot ≤ tree.rangeStart child ∧
      tree.rangeStart child + tree.leafCount child ≤
        tree.rangeStart slot + tree.leafCount slot := by
  obtain ⟨later, inside⟩ := linked.lt_of_mem_children member
  obtain ⟨before, after, split⟩ := List.append_of_mem member
  have start := linked.rangeStart_child split
  have sum := linked.sum_leafCount_le (Nat.lt_trans later inside)
  rw [split, List.map_append, List.sum_append, List.map_cons, List.sum_cons] at sum
  omega

/-- The ranges of siblings follow each other. -/
theorem range_siblings (linked : tree.Linked) (member : child ∈ tree.children slot)
    (otherMember : other ∈ tree.children slot) (earlier : child < other) :
    tree.rangeStart child + tree.leafCount child ≤ tree.rangeStart other := by
  obtain ⟨before, after, split⟩ := List.append_of_mem otherMember
  have inFront : child ∈ before := by
    have ordered := linked.pairwise_children slot
    rw [split, List.pairwise_append, List.pairwise_cons] at ordered
    rw [split, List.mem_append, List.mem_cons] at member
    rcases member with inFront | rfl | behind
    · exact inFront
    · exact absurd earlier (Nat.lt_irrefl child)
    · exact absurd earlier (Nat.lt_asymm (ordered.2.1.1 child behind))
  obtain ⟨front, between, frontSplit⟩ := List.append_of_mem inFront
  have childStart : tree.rangeStart child =
      tree.rangeStart slot + (front.map tree.leafCount).sum := by
    apply linked.rangeStart_child
    rw [split, frontSplit, List.append_assoc, List.cons_append]
  have otherStart := linked.rangeStart_child split
  rw [frontSplit, List.map_append, List.sum_append, List.map_cons, List.sum_cons] at otherStart
  omega

end Linked

end CallTree

end Unfolding
