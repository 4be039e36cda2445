import Unfolding.Expansion.Basic
import Unfolding.Expansion.Queue

/-!
Unfolding a linear-shift recurrence.

Calls wait in a queue and are expanded in the order in which they were added:
each makes one call for every shift, or none at all if they do not fit under
the limit.  Base cases never wait.  Arguments are natural numbers, and a shift
larger than the argument leaves zero.
-/

namespace Unfolding

/-- A call that waits for its own calls to be made. -/
structure Waiting where
  slot : Nat
  argument : Nat
  deriving Repr, DecidableEq

namespace LinearShift

/-- Whether a call with an argument is a base case. -/
def isBase (r : LinearShift) (argument : Nat) : Bool := decide (argument ≤ r.baseArgument)

/-- Let a call wait unless it is a base case. -/
def enqueue (r : LinearShift) (queue : Queue Waiting) (call : Waiting) : Queue Waiting :=
  if r.isBase call.argument then queue else queue.push call

/-- Make the calls of one call for a list of shifts; `index` counts them. -/
def addCalls (r : LinearShift) (caller : Waiting) (id : String) :
    (index : Nat) → List UInt32 → CallTree → Queue Waiting →
      Except Fault (CallTree × Queue Waiting)
  | _, [], tree, queue => .ok (tree, queue)
  | index, shift :: shifts, tree, queue =>
      let argument := caller.argument - shift.toNat
      let slot := tree.size
      match tree.addChild caller.slot (id ++ "." ++ toString index) (Float.ofNat argument)
          (r.isBase argument) with
      | .error fault => .error fault
      | .ok tree =>
          addCalls r caller id (index + 1) shifts tree (r.enqueue queue { slot, argument })

theorem size_addCalls {r : LinearShift} {caller : Waiting} {id : String} {index : Nat}
    {shifts : List UInt32} {tree result : CallTree} {queue rest : Queue Waiting}
    (added : r.addCalls caller id index shifts tree queue = .ok (result, rest)) :
    result.size = tree.size + shifts.length := by
  induction shifts generalizing index tree queue with
  | nil =>
      cases added
      rfl
  | cons shift shifts inductionHypothesis =>
      unfold addCalls at added
      dsimp only at added
      split at added
      · cases added
      · rename_i extended grown
        rw [inductionHypothesis added, CallTree.size_addChild grown, List.length_cons]
        omega

/-- The state of an unfolding: the tree so far and the calls that wait. -/
structure Frontier where
  tree : CallTree
  queue : Queue Waiting

/-- What comes of one step. -/
inductive Progress where
  | finished (expansion : Expansion)
  | continued (frontier : Frontier)

/-- Take the first of the waiting calls and make its calls. -/
def step (r : LinearShift) (depth limit : Nat) (frontier : Frontier) : Except Fault Progress :=
  let { tree, queue } := frontier
  match queue.pop? with
  | none => .ok (.finished { tree, stop := none })
  | some (waiting, rest) =>
      match tree.call waiting.slot with
      | .error fault => .error fault
      | .ok call =>
          if depth ≤ call.level then .ok (.continued { tree, queue := rest })
          else if limit < tree.size + r.shifts.length then
            .ok (.finished (.stopped tree (tree.levelCount - 1)))
          else
            match r.addCalls waiting call.id 0 r.shifts tree rest with
            | .error fault => .error fault
            | .ok (tree, queue) => .ok (.continued { tree, queue })

/-- A step that is not the last takes a call from the queue.  At the full depth that is all;
above it the call makes its calls, and these fit under the limit. -/
theorem exists_of_step_continued {r : LinearShift} {depth limit : Nat} {frontier next : Frontier}
    (stepped : r.step depth limit frontier = .ok (.continued next)) :
    ∃ waiting rest call, frontier.queue.pop? = some (waiting, rest) ∧
      frontier.tree.call waiting.slot = .ok call ∧
      ((depth ≤ call.level ∧ next = { tree := frontier.tree, queue := rest }) ∨
        (¬ depth ≤ call.level ∧ ¬ limit < frontier.tree.size + r.shifts.length ∧
          r.addCalls waiting call.id 0 r.shifts frontier.tree rest =
            .ok (next.tree, next.queue))) := by
  unfold step at stepped
  dsimp only at stepped
  split at stepped
  · cases stepped
  · rename_i waiting rest popped
    split at stepped
    · cases stepped
    · rename_i call read
      refine ⟨waiting, rest, call, popped, read, ?_⟩
      split at stepped
      · rename_i deep
        cases stepped
        exact .inl ⟨deep, rfl⟩
      · rename_i shallow
        split at stepped
        · cases stepped
        · rename_i room
          split at stepped
          · cases stepped
          · rename_i added
            cases stepped
            exact .inr ⟨shallow, room, added⟩

/-- The last step adds no calls.  If the limit stops it, it notes where. -/
theorem eq_of_step_finished {r : LinearShift} {depth limit : Nat} {frontier : Frontier}
    {expansion : Expansion} (stepped : r.step depth limit frontier = .ok (.finished expansion)) :
    expansion = { tree := frontier.tree, stop := none } ∨
      expansion = .stopped frontier.tree (frontier.tree.levelCount - 1) := by
  unfold step at stepped
  dsimp only at stepped
  split at stepped
  · cases stepped
    exact .inl rfl
  · split at stepped
    · cases stepped
    · split at stepped
      · cases stepped
      · split at stepped
        · cases stepped
          exact .inr rfl
        · split at stepped <;> cases stepped

/-- A step either adds calls, and then stays within the limit, or only takes a
call from the queue. -/
theorem step_continued {r : LinearShift} {depth limit : Nat} {frontier next : Frontier}
    (stepped : r.step depth limit frontier = .ok (.continued next)) :
    (frontier.tree.size < next.tree.size ∧ next.tree.size ≤ limit) ∨
      (next.tree = frontier.tree ∧
        next.queue.toList.length < frontier.queue.toList.length) := by
  obtain ⟨waiting, rest, call, popped, -, outcome⟩ := exists_of_step_continued stepped
  have shorter : rest.toList.length < frontier.queue.toList.length := by
    rw [Queue.toList_of_pop? popped]
    simp
  rcases outcome with ⟨-, rfl⟩ | ⟨-, room, added⟩
  · exact .inr ⟨rfl, shorter⟩
  · have sized := size_addCalls added
    cases shiftsEq : r.shifts with
    | nil =>
        obtain ⟨tree, queue⟩ := next
        rw [shiftsEq] at added
        cases added
        exact .inr ⟨rfl, shorter⟩
    | cons shift shifts =>
        refine .inl ?_
        rw [shiftsEq, List.length_cons] at sized room
        omega

/-- Step until nothing waits or the limit is reached. -/
def addWaiting (r : LinearShift) (depth limit : Nat) (frontier : Frontier) :
    Except Fault Expansion :=
  match _stepped : r.step depth limit frontier with
  | .error fault => .error fault
  | .ok (.finished expansion) => .ok expansion
  | .ok (.continued next) => addWaiting r depth limit next
termination_by (limit - frontier.tree.size, frontier.queue.toList.length)
decreasing_by
  rcases step_continued _stepped with ⟨grown, within⟩ | ⟨same, shorter⟩
  · exact Prod.Lex.left _ _ (by omega)
  · rw [same]
    exact Prod.Lex.right _ shorter

/-- The tree with only the first call, which waits unless it is a base case. -/
def start (r : LinearShift) (argument : Nat) : Except Fault Frontier :=
  let tree : CallTree := { family := .linearShift }
  match tree.addRoot "n" (Float.ofNat argument) (r.isBase argument) with
  | .error fault => .error fault
  | .ok tree => .ok { tree, queue := r.enqueue {} { slot := 0, argument } }

/-- Give every level of a tree the number of its calls. -/
def giveWidths (tree : CallTree) : CallTree :=
  { tree with rowWidths := tree.levels.map LevelCount.calls }

/-- The tree of a recurrence from a first size down to a depth. -/
def expand (r : LinearShift) (initial : Float) (depth : Nat) (nodeLimit : UInt64) :
    Except Fault Expansion :=
  match r.start (Number.wholePart initial) with
  | .error fault => .error fault
  | .ok frontier =>
      match r.addWaiting depth (callLimit nodeLimit) frontier with
      | .error fault => .error fault
      | .ok { tree, stop } => .ok { tree := giveWidths tree, stop }

end LinearShift

end Unfolding
