import Unfolding.CallTree.Basic
import Std.Data.TreeMap

/-!
Calls that are made more than once with the same argument.
-/

namespace Unfolding

/-- How often arguments repeat in a tree. -/
structure Repetition where
  /-- The number of arguments with more than one call. -/
  groups : Nat
  /-- The number of calls with such an argument. -/
  annotated : Nat
  deriving Repr, DecidableEq

/-- Equal arguments have equal keys.  Adding zero gives both zeros one key. -/
def argumentKey (argument : Float) : UInt64 := (argument + 0.0).toBits

namespace CallTree

/-- The number of calls for each argument. -/
def argumentCounts (tree : CallTree) : Std.TreeMap UInt64 Nat :=
  tree.calls.foldl
    (fun counts call =>
      let key := argumentKey call.argument
      counts.insert key (counts.getD key 0 + 1))
    ∅

/-- Note on a call how many calls there are with its argument, if more than
one. -/
def noteRepeats (counts : Std.TreeMap UInt64 Nat) (call : Call) : Call :=
  let count := counts.getD (argumentKey call.argument) 0
  if 1 < count then { call with repeats := some count } else call

/-- Note the repetitions on all calls and sum them up. -/
def markRepeats (tree : CallTree) : CallTree × Repetition :=
  let counts := tree.argumentCounts
  let repeated := (counts.toList.map Prod.snd).filter (1 < ·)
  ({ tree with calls := tree.calls.map (noteRepeats counts) },
    { groups := repeated.length, annotated := repeated.foldl (· + ·) 0 })

end CallTree

end Unfolding
