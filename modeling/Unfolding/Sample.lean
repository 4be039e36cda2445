import Unfolding.Event.Json
import Unfolding.Event.Line
import Unfolding.Generation

/-!
Two sample recurrences, drawn into files with the log of their events.
-/

namespace Unfolding.Sample

/-- The calls of merge sort. -/
def mergeSort : Recurrence :=
  .divideConquer { branching := 2, reduction := 2, work := "n", threshold := 1 }

/-- The calls of the naive Fibonacci function. -/
def fibonacci : Recurrence :=
  .linearShift { LinearShift.ofShifts [1, 2] 1 with coefficients := ["1", "1"], extra := some "1" }

/-- A file to be written. -/
structure File where
  name : String
  text : String

/-- One step of the program: lines that trace it, a file, and a line that says
that the file has been written. -/
structure Step where
  traced : List String
  file : File
  notice : String

/-- The drawing of a recurrence in a file. -/
def drawingStep (name : String) (r : Recurrence) (view : View) : Except Fault (Step × List Event) :=
  let run := r.run view Style.standard
  match run.outcome with
  | .error fault => .error fault
  | .ok drawing =>
      let step := {
        traced := run.events.map Event.line
        file := { name, text := drawing.fileText }
        notice := "Wrote " ++ name ++ " (" ++ toString drawing.metadata.totalNodes ++ " nodes, " ++
          toString drawing.metadata.totalLevels ++ " levels)" }
      .ok (step, run.events)

/-- The log of events in a file. -/
def logStep (events : List Event) : Step where
  traced := []
  file := { name := "events.json", text := Event.fileText events }
  notice := "Wrote events.json"

/-- Both drawings, then their log. -/
def steps : Except Fault (List Step) := do
  let (first, firstEvents) ← drawingStep "merge_sort.json" mergeSort { initial := 16 }
  let (second, secondEvents) ← drawingStep "fibonacci.json" fibonacci
    { initial := 6, orientation := .horizontal }
  return [first, second, logStep (firstEvents ++ secondEvents)]

end Unfolding.Sample
