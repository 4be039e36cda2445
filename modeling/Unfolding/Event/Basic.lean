import Unfolding.Recurrence.Basic

/-!
What a run reports while it unfolds and draws a recurrence.

Numbers in events have the widths in which they are recorded.
-/

namespace Unfolding

inductive Event where
  /-- The depth of the tree has been settled. -/
  | depthSettled (family : Family) (natural : UInt32) (requested : Option UInt32)
      (effective : UInt32) (atHorizon : Bool)
  /-- A level has been built. -/
  | levelBuilt (level nodes baseCases : UInt32)
  /-- The node limit has stopped the unfolding. -/
  | limitReached (limit emitted : UInt64) (level : UInt32)
  /-- Repeated arguments have been counted. -/
  | repeatsCounted (groups annotated : UInt32)
  /-- The drawing is finished. -/
  | drawn (family : Family) (totalNodes : UInt64) (totalLevels : UInt32) (truncated : Bool)
  deriving Repr, DecidableEq

end Unfolding
