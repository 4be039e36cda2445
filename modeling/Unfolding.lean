import Unfolding.CallTree.Basic
import Unfolding.CallTree.Levels
import Unfolding.CallTree.Repetition
import Unfolding.Depth
import Unfolding.Drawing.Basic
import Unfolding.Drawing.Json
import Unfolding.Drawing.Label
import Unfolding.Drawing.Orientation
import Unfolding.Drawing.Slots
import Unfolding.Drawing.Style
import Unfolding.Event.Basic
import Unfolding.Event.Json
import Unfolding.Event.Line
import Unfolding.Event.Record
import Unfolding.Expansion.Basic
import Unfolding.Expansion.Division
import Unfolding.Expansion.Queue
import Unfolding.Expansion.Subtraction
import Unfolding.Fault
import Unfolding.Generation
import Unfolding.Json.Basic
import Unfolding.Json.Printer
import Unfolding.Json.Reader
import Unfolding.Main
import Unfolding.Number.Binary
import Unfolding.Number.Numeral
import Unfolding.Number.Rounding
import Unfolding.Number.Shortest
import Unfolding.Proofs.CallTree.Histogram
import Unfolding.Proofs.CallTree.Levels
import Unfolding.Proofs.CallTree.Links
import Unfolding.Proofs.CallTree.Marks
import Unfolding.Proofs.CallTree.Outline
import Unfolding.Proofs.Depth
import Unfolding.Proofs.Drawing.Branches
import Unfolding.Proofs.Drawing.Grid
import Unfolding.Proofs.Drawing.Label
import Unfolding.Proofs.Drawing.Leaves
import Unfolding.Proofs.Drawing.Mirror
import Unfolding.Proofs.Drawing.Ranges
import Unfolding.Proofs.Drawing.RecursiveLayout
import Unfolding.Proofs.Drawing.RootedTree
import Unfolding.Proofs.Drawing.Separation
import Unfolding.Proofs.Event.Cursor
import Unfolding.Proofs.Event.Cut
import Unfolding.Proofs.Event.Grammar
import Unfolding.Proofs.Event.Line
import Unfolding.Proofs.Event.Narrative
import Unfolding.Proofs.Event.Progress
import Unfolding.Proofs.Event.RoundTrip
import Unfolding.Proofs.Expansion.Additions
import Unfolding.Proofs.Expansion.Division
import Unfolding.Proofs.Expansion.Limit
import Unfolding.Proofs.Expansion.NaturalDepth
import Unfolding.Proofs.Expansion.Order
import Unfolding.Proofs.Expansion.Paths
import Unfolding.Proofs.Expansion.Recursion
import Unfolding.Proofs.Expansion.Regularity
import Unfolding.Proofs.Expansion.Reordering
import Unfolding.Proofs.Expansion.Rows
import Unfolding.Proofs.Expansion.Stop
import Unfolding.Proofs.Expansion.Subtraction
import Unfolding.Proofs.Expansion.Sweep
import Unfolding.Proofs.Expansion.Tightening
import Unfolding.Proofs.Expansion.Turns
import Unfolding.Proofs.Generation
import Unfolding.Proofs.Limit
import Unfolding.Proofs.Number.Decimal
import Unfolding.Proofs.Number.Double
import Unfolding.Proofs.Number.Exact
import Unfolding.Proofs.Number.Hundredths
import Unfolding.Proofs.Number.Numeral
import Unfolding.Proofs.Number.Rational
import Unfolding.Proofs.Refusal
import Unfolding.Proofs.Reordering
import Unfolding.Proofs.Repetition
import Unfolding.Proofs.Request
import Unfolding.Proofs.Truncation
import Unfolding.Proofs.Words.Basic
import Unfolding.Proofs.Words.Columns
import Unfolding.Proofs.Words.Division
import Unfolding.Proofs.Words.Drawing
import Unfolding.Proofs.Words.Generation
import Unfolding.Proofs.Words.Levels
import Unfolding.Proofs.Words.Links
import Unfolding.Proofs.Words.Placement
import Unfolding.Proofs.Words.Repetition
import Unfolding.Proofs.Words.Subtraction
import Unfolding.Recurrence.Basic
import Unfolding.Recurrence.Json
import Unfolding.Sample
import Unfolding.View
