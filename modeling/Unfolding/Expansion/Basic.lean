import Unfolding.CallTree.Levels

/-!
What an unfolding under a node limit yields.
-/

namespace Unfolding

/-- Where the node limit stopped an unfolding. -/
structure LimitStop where
  /-- The number of calls in the tree. -/
  emitted : Nat
  /-- The deepest level of the tree. -/
  level : Nat
  deriving Repr, DecidableEq

structure Expansion where
  tree : CallTree
  stop : Option LimitStop

/-- The number of calls that a node limit allows. -/
def callLimit (nodeLimit : UInt64) : Nat := min nodeLimit.toNat CallTree.capacity

/-- An unfolding that the node limit stopped leaves a truncated tree. -/
def Expansion.stopped (tree : CallTree) (level : Nat) : Expansion where
  tree := { tree with isTruncated := true }
  stop := some { emitted := tree.size, level }

end Unfolding
