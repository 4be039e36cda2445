import Unfolding.Depth
import Unfolding.Event.Basic
import Unfolding.Expansion.Division
import Unfolding.Expansion.Subtraction
import Unfolding.View

/-!
From a recurrence to its drawing.

A run settles the depth, unfolds the tree, notes repeated arguments, places the
calls, and reports each of these steps as events.
-/

namespace Unfolding

/-- The tree of a recurrence within a depth and a node limit. -/
def Recurrence.expand (r : Recurrence) (initial : Float) (depth : Nat) (nodeLimit : UInt64) :
    Except Fault Expansion :=
  match r with
  | .divideConquer r => r.expand initial depth nodeLimit
  | .linearShift r => r.expand initial depth nodeLimit

/-- Growth is only told of linear-shift recurrences. -/
def Recurrence.growth? : Recurrence → Option Growth
  | .divideConquer _ => none
  | .linearShift r => some (.ofShiftCount r.shifts.length)

/-- An unfolded recurrence, ready to be drawn. -/
structure Unfolded where
  tree : CallTree
  budget : DepthBudget
  repetition : Option Repetition
  growth : Option Growth
  stop : Option LimitStop

namespace Unfolded

/-- A tree that the horizon cuts is truncated. -/
def markHorizon (budget : DepthBudget) (tree : CallTree) : CallTree :=
  if budget.isHorizonBound then { tree with isTruncated := true } else tree

/-- Note what is known of an expanded tree.  Repeated arguments are noted where
growth is told. -/
def ofExpansion (budget : DepthBudget) (growth : Option Growth) (expansion : Expansion) :
    Unfolded :=
  let tree := markHorizon budget expansion.tree
  match growth with
  | none => { tree, budget, repetition := none, growth, stop := expansion.stop }
  | some _ =>
      let (tree, repetition) := tree.markRepeats
      { tree, budget, repetition := some repetition, growth, stop := expansion.stop }

def findings (unfolded : Unfolded) : Findings where
  repetition := unfolded.repetition
  growth := unfolded.growth
  effectiveDepth := unfolded.budget.effective

/-- Place the calls in the way of their family, and draw them. -/
def draw (unfolded : Unfolded) (orientation : Orientation) (style : Style) :
    Except Fault Drawing :=
  let tree := unfolded.tree
  let positions := tree.family.placement.positions tree orientation style
  Drawing.ofPositions tree positions orientation style unfolded.findings

end Unfolded

/-- Unfold a recurrence within a settled depth. -/
def Recurrence.unfoldWithin (r : Recurrence) (initial : Float) (budget : DepthBudget)
    (nodeLimit : UInt64) : Except Fault Unfolded :=
  match r.expand initial budget.effective nodeLimit with
  | .error fault => .error fault
  | .ok expansion => .ok (.ofExpansion budget r.growth? expansion)

/-- Settle the depth of a recurrence and unfold it. -/
def Recurrence.unfold (r : Recurrence) (view : View) (nodeLimit : UInt64) :
    Except Fault Unfolded :=
  match r.depth view.initial view.maxDepth with
  | .error fault => .error fault
  | .ok budget => r.unfoldWithin view.initial budget nodeLimit

/-! ### Events of a run -/

def DepthBudget.event (budget : DepthBudget) (family : Family) : Event :=
  .depthSettled family budget.natural.toUInt32 budget.requested budget.effective.toUInt32
    budget.atHorizon

def LimitStop.event (stop : LimitStop) (nodeLimit : UInt64) : Event :=
  .limitReached nodeLimit stop.emitted.toUInt64 stop.level.toUInt32

def LevelCount.event (count : LevelCount) (level : Nat) : Event :=
  .levelBuilt level.toUInt32 count.calls.toUInt32 count.bases.toUInt32

def CallTree.levelEvents (tree : CallTree) : List Event :=
  tree.levels.toList.zipIdx.map fun (count, level) => count.event level

def Repetition.event (repetition : Repetition) : Event :=
  .repeatsCounted repetition.groups.toUInt32 repetition.annotated.toUInt32

def Metadata.event (metadata : Metadata) : Event :=
  .drawn metadata.family metadata.totalNodes.toUInt64 metadata.totalLevels.toUInt32
    metadata.isTruncated

/-- The events of an unfolding after its depth is settled. -/
def Unfolded.events (unfolded : Unfolded) (nodeLimit : UInt64) : List Event :=
  (unfolded.stop.map (·.event nodeLimit)).toList ++ unfolded.tree.levelEvents ++
    (unfolded.repetition.map Repetition.event).toList

/-- A run: the events in the order in which they were reported, and the drawing
or the reason why there is none. -/
structure Run where
  events : List Event
  outcome : Except Fault Drawing

/-- Unfold and draw a recurrence and report every step. -/
def Recurrence.run (r : Recurrence) (view : View) (style : Style) : Run :=
  match r.depth view.initial view.maxDepth with
  | .error fault => { events := [], outcome := .error fault }
  | .ok budget =>
      let settled := budget.event r.family
      match r.unfoldWithin view.initial budget style.nodeLimit with
      | .error fault => { events := [settled], outcome := .error fault }
      | .ok unfolded =>
          let built := settled :: unfolded.events style.nodeLimit
          match unfolded.draw view.orientation style with
          | .error fault => { events := built, outcome := .error fault }
          | .ok drawing => { events := built ++ [drawing.metadata.event], outcome := .ok drawing }

/-- The drawing of a recurrence. -/
def Recurrence.generate (r : Recurrence) (view : View) (style : Style) : Except Fault Drawing :=
  (r.run view style).outcome

end Unfolding
