import Unfolding.Expansion.Basic

/-!
Unfolding a divide-and-conquer recurrence.

All calls on a level have the same size, so the tree grows by whole rows.  A
row is added if it fits under the limit as a whole; the calls below a row of
base cases are never made.
-/

namespace Unfolding

/-- A row of calls with the same size. -/
structure Row where
  level : Nat
  /-- The slot of the first call. -/
  first : Nat
  width : Nat
  size : Float

namespace DivideConquer

/-- Whether calls of a size are base cases. -/
def isBase (r : DivideConquer) (size : Float) : Bool := decide (size ≤ r.baseSize)

def callId (level index : Nat) : String := "d-" ++ toString level ++ "-" ++ toString index

/-- The row below a row, to be put at the end of a tree. -/
def nextRow (r : DivideConquer) (above : Row) (tree : CallTree) : Row where
  level := above.level + 1
  first := tree.size
  width := above.width * r.branching.toNat
  size := above.size / r.reduction

/-- Add the call with an index to a row.  Its caller is found by dividing the
index by the branching factor. -/
def addCall (r : DivideConquer) (above row : Row) (tree : CallTree) (index : Nat) :
    Except Fault CallTree :=
  let caller := index / r.branching.toNat
  if caller < above.width then
    tree.addChild (above.first + caller) (callId row.level index) row.size (r.isBase row.size)
  else .error (.orphan row.level index)

/-- Add all calls of a row. -/
def addRow (r : DivideConquer) (above row : Row) (tree : CallTree) : Except Fault CallTree :=
  match (List.range row.width).foldlM (r.addCall above row) tree with
  | .error fault => .error fault
  | .ok tree => .ok { tree with rowWidths := tree.rowWidths.push row.width }

/-- Add rows below a row, at most `left` of them. -/
def addRows (r : DivideConquer) (limit : Nat) :
    (left : Nat) → (above : Row) → CallTree → Except Fault Expansion
  | 0, _, tree => .ok { tree, stop := none }
  | left + 1, above, tree =>
      if r.isBase above.size then .ok { tree, stop := none }
      else
        let row := r.nextRow above tree
        if row.width ≤ limit - tree.size then
          match r.addRow above row tree with
          | .error fault => .error fault
          | .ok tree => addRows r limit left row tree
        else .ok (.stopped tree above.level)

/-- The tree of a recurrence from a first size down to a depth. -/
def expand (r : DivideConquer) (initial : Float) (depth : Nat) (nodeLimit : UInt64) :
    Except Fault Expansion :=
  let tree : CallTree := { family := .divideConquer, rowWidths := #[1] }
  match tree.addRoot (callId 0 0) initial (r.isBase initial) with
  | .error fault => .error fault
  | .ok tree =>
      r.addRows (callLimit nodeLimit) depth
        { level := 0, first := 0, width := 1, size := initial } tree

end DivideConquer

end Unfolding
