import Unfolding.Recurrence.Basic

/-!
Trees of calls.

A call tree holds its calls in the order in which they were added.  The place
of a call in this order is its slot.  The root has slot zero, and every other
call is added below a call that is already there, so callers come before the
calls that they make.
-/

namespace Unfolding

structure Call where
  id : String
  /-- The size or argument of the call. -/
  argument : Float
  level : Nat
  isBase : Bool
  /-- The slot of the caller. -/
  parent : Option Nat
  /-- The slots of the calls made, in the order in which they were added. -/
  children : Array Nat := #[]
  /-- The number of calls with this argument, where it is known to be above one. -/
  repeats : Option Nat := none

def Call.isLeaf (call : Call) : Bool := call.children.isEmpty

structure CallTree where
  family : Family
  calls : Array Call := #[]
  /-- The number of calls that each level was given by whoever built the tree. -/
  rowWidths : Array Nat := #[]
  /-- The tree was cut short. -/
  isTruncated : Bool := false

namespace CallTree

/-- The number of calls that a tree can hold. -/
def capacity : Nat := UInt32.size - 1

def size (tree : CallTree) : Nat := tree.calls.size

/-- The call in a slot. -/
def call (tree : CallTree) (slot : Nat) : Except Fault Call :=
  match tree.calls[slot]? with
  | some call => .ok call
  | none => .error (.misuse (.slotOutOfRange slot tree.size))

/-- Put a call into the next slot. -/
def append (tree : CallTree) (call : Call) : Except Fault CallTree :=
  if tree.size < capacity then .ok { tree with calls := tree.calls.push call }
  else .error (.misuse .treeFull)

/-- Note that the call in slot `parent` made the call in slot `child`. -/
def link (tree : CallTree) (parent child : Nat) : CallTree :=
  { tree with
    calls := tree.calls.modify parent fun call =>
      { call with children := call.children.push child } }

/-- Add the first call. -/
def addRoot (tree : CallTree) (id : String) (argument : Float) (isBase : Bool) :
    Except Fault CallTree :=
  if tree.size = 0 then tree.append { id, argument, level := 0, isBase, parent := none }
  else .error (.misuse .rootTaken)

/-- Add a call made by the call in slot `parent`.  It gets the slot
`tree.size`. -/
def addChild (tree : CallTree) (parent : Nat) (id : String) (argument : Float) (isBase : Bool) :
    Except Fault CallTree :=
  match tree.calls[parent]? with
  | none => .error (.misuse (.slotOutOfRange parent tree.size))
  | some caller =>
      let level := caller.level + 1
      let slot := tree.size
      match tree.append { id, argument, level, isBase, parent := some parent } with
      | .error fault => .error fault
      | .ok tree => .ok (tree.link parent slot)

/-- The slots of the calls made by the call in a slot. -/
def children (tree : CallTree) (slot : Nat) : List Nat :=
  match tree.calls[slot]? with
  | some call => call.children.toList
  | none => []

/-- The number of calls that the level of a call was given; zero for a level
that was given none. -/
def rowWidth (tree : CallTree) (level : Nat) : Nat := tree.rowWidths.getD level 0

@[simp] theorem size_link (tree : CallTree) (parent child : Nat) :
    (tree.link parent child).size = tree.size := by
  simp [link, size]

@[simp] theorem getElem?_calls_link (tree : CallTree) (parent child slot : Nat) :
    (tree.link parent child).calls[slot]? =
      if parent = slot then
        tree.calls[slot]?.map fun call => { call with children := call.children.push child }
      else tree.calls[slot]? := by
  simp [link, Array.getElem?_modify]

theorem size_append {tree result : CallTree} {call : Call}
    (appended : tree.append call = .ok result) : result.size = tree.size + 1 := by
  unfold append at appended
  split at appended
  · cases appended
    simp [size]
  · cases appended

theorem size_addChild {tree result : CallTree} {parent : Nat} {id : String} {argument : Float}
    {isBase : Bool} (added : tree.addChild parent id argument isBase = .ok result) :
    result.size = tree.size + 1 := by
  unfold addChild at added
  split at added
  · cases added
  · dsimp only at added
    split at added
    · cases added
    · rename_i extended appended
      cases added
      rw [size_link, size_append appended]

/-- With room in the tree, the only thing a new call needs is its caller. -/
theorem addChild_of_room {tree : CallTree} {parent : Nat} {caller : Call}
    (found : tree.calls[parent]? = some caller) (room : tree.size < capacity) (id : String)
    (argument : Float) (isBase : Bool) :
    tree.addChild parent id argument isBase =
      .ok (link { tree with
        calls := tree.calls.push
          { id, argument, level := caller.level + 1, isBase, parent := some parent } }
        parent tree.size) := by
  simp [addChild, append, found, room]

end CallTree

end Unfolding
