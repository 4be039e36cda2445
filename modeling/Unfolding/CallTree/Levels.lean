import Unfolding.CallTree.Basic

/-!
The levels of a call tree and how many calls stand on each.
-/

namespace Unfolding

/-- The calls on one level, and how many of them are base cases. -/
structure LevelCount where
  calls : Nat := 0
  bases : Nat := 0
  deriving Repr, DecidableEq

/-- Count one more call. -/
def LevelCount.add (count : LevelCount) (isBase : Bool) : LevelCount where
  calls := count.calls + 1
  bases := if isBase then count.bases + 1 else count.bases

namespace CallTree

/-- One more than the deepest level; zero for the empty tree. -/
def levelCount (tree : CallTree) : Nat :=
  tree.calls.foldl (fun count call => max count (call.level + 1)) 0

/-- The counts of all levels, the root's first. -/
def levels (tree : CallTree) : Array LevelCount :=
  tree.calls.foldl (fun counts call => counts.modify call.level (·.add call.isBase))
    (Array.replicate tree.levelCount {})

end CallTree

end Unfolding
