import Unfolding.Event.Basic

/-!
Events as printed lines.
-/

namespace Unfolding

/-- The family as it is called in a printed line. -/
def Family.title : Family → String
  | .divideConquer => "divide-conquer"
  | .linearShift => "linear-shift"

namespace Event

/-- The requested depth of a line, or `none`. -/
def requestText : Option UInt32 → String
  | none => "none"
  | some depth => toString depth.toNat

/-- A word at the end of a line, if it applies. -/
def markText (applies : Bool) (mark : String) : String := if applies then " " ++ mark else ""

/-- The line of an event, without its line break. -/
def line : Event → String
  | .depthSettled family natural requested effective atHorizon =>
      "[depth] " ++ family.title ++ " natural=" ++ toString natural.toNat ++
        " requested=" ++ requestText requested ++ " effective=" ++ toString effective.toNat ++
        markText atHorizon "HORIZON"
  | .levelBuilt level nodes baseCases =>
      "[level] L" ++ toString level.toNat ++ " nodes=" ++ toString nodes.toNat ++
        " base=" ++ toString baseCases.toNat
  | .limitReached limit emitted level =>
      "[limit] stopped at L" ++ toString level.toNat ++ " with " ++ toString emitted.toNat ++
        " nodes (limit " ++ toString limit.toNat ++ ")"
  | .repeatsCounted groups annotated =>
      "[dups] groups=" ++ toString groups.toNat ++ " annotated=" ++ toString annotated.toNat
  | .drawn family totalNodes totalLevels truncated =>
      "[layout] " ++ family.title ++ " nodes=" ++ toString totalNodes.toNat ++
        " levels=" ++ toString totalLevels.toNat ++ markText truncated "TRUNCATED"

/-- The line of an event with its line break. -/
def printed (event : Event) : String := event.line ++ "\n"

/-- The text of events printed one after another. -/
def printedAll (events : List Event) : String := String.join (events.map printed)

end Event

end Unfolding
