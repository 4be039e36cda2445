import Unfolding.Proofs.Expansion.Tightening

/-!
Turns of a linear-shift expansion.

The call that has waited longest takes its turn: it leaves the queue, and the calls
that it makes get new slots and go to the end of the queue.  The queue can grow with
every turn.  But its slots stand in order and on at most two levels, so that no slot
has a second turn, and there are no more turns than slots.
-/

namespace Unfolding

namespace CallTree

/-- Whether the call in a slot is a base case. -/
def isBase? (tree : CallTree) (slot : Nat) : Option Bool := tree.calls[slot]?.map Call.isBase

/-- The calls in some slots can wait in this order. -/
structure InLine (tree : CallTree) (slots : List Nat) : Prop where
  notBase : ∀ slot ∈ slots, tree.isBase? slot = some false
  increasing : slots.Pairwise (· < ·)
  /-- Levels do not fall along the line, and any two differ by at most one. -/
  levels : slots.Pairwise fun slot other => ∃ level next, tree.level? slot = some level ∧
    tree.level? other = some next ∧ level ≤ next ∧ next ≤ level + 1

variable {tree result : CallTree} {parent : Nat} {id : String} {argument : Float} {isBase : Bool}

theorem isBase?_of_addChild (added : tree.addChild parent id argument isBase = .ok result)
    (slot : Nat) :
    result.isBase? slot = if slot = tree.size then some isBase else tree.isBase? slot := by
  obtain ⟨caller, -, kept⟩ := bind_of_addChild added (some ∘ Call.isBase) fun _ _ => rfl
  rw [isBase?, isBase?, Option.map_eq_bind, Option.map_eq_bind]
  exact kept slot

namespace InLine

variable {slots : List Nat} {slot : Nat}

theorem nil : tree.InLine [] where
  notBase := by simp
  increasing := .nil
  levels := .nil

theorem tail (inLine : tree.InLine (slot :: slots)) : tree.InLine slots where
  notBase other behind := inLine.notBase other (List.mem_cons_of_mem slot behind)
  increasing := inLine.increasing.of_cons
  levels := inLine.levels.of_cons

theorem lt_of_mem_tail (inLine : tree.InLine (slot :: slots)) {other : Nat}
    (behind : other ∈ slots) : slot < other :=
  List.rel_of_pairwise_cons inLine.increasing behind

theorem lt_size (inLine : tree.InLine slots) (waits : slot ∈ slots) : slot < tree.size := by
  obtain ⟨call, found, -⟩ := Option.map_eq_some_iff.mp (inLine.notBase slot waits)
  exact lt_size_iff.mpr ⟨call, found⟩

/-- Calls in line stay as they are while other calls are added. -/
theorem addChild (inLine : tree.InLine slots)
    (added : tree.addChild parent id argument isBase = .ok result) : result.InLine slots where
  notBase := by
    intro slot waits
    rw [isBase?_of_addChild added, if_neg (Nat.ne_of_lt (inLine.lt_size waits))]
    exact inLine.notBase slot waits
  increasing := inLine.increasing
  levels := by
    have kept {slot level : Nat} (here : tree.level? slot = some level) :
        result.level? slot = some level := by
      rw [level?_of_addChild added, if_neg (Nat.ne_of_lt (lt_size_of_level? here)), here]
    apply inLine.levels.imp
    rintro slot other ⟨level, next, here, there, bounds⟩
    exact ⟨level, next, kept here, kept there, bounds⟩

/-- All in line are on the level of the first or on the next. -/
theorem exists_level (inLine : tree.InLine (parent :: slots)) {top : Nat}
    (first : tree.level? parent = some top) (waits : slot ∈ parent :: slots) :
    ∃ level, tree.level? slot = some level ∧ top ≤ level ∧ level ≤ top + 1 := by
  rcases List.mem_cons.mp waits with rfl | behind
  · exact ⟨top, first, Nat.le_refl top, Nat.le_succ top⟩
  · obtain ⟨level, next, here, there, bounds⟩ := List.rel_of_pairwise_cons inLine.levels behind
    cases first.symm.trans here
    exact ⟨next, there, bounds⟩

/-- A call made by the first in line can go to the end of the line. -/
theorem concat (inLine : tree.InLine (parent :: slots))
    (added : tree.addChild parent id argument false = .ok result) :
    result.InLine (parent :: (slots ++ [tree.size])) := by
  have kept := inLine.addChild added
  obtain ⟨caller, found, -⟩ := getElem?_of_addChild added
  have first : tree.level? parent = some caller.level := by rw [level?, found, Option.map_some]
  have new : result.level? tree.size = some (caller.level + 1) := by
    rw [level?_of_addChild added, if_pos rfl, first, Option.map_some]
  rw [← List.cons_append]
  refine ⟨?_, ?_, ?_⟩
  · intro slot waits
    rcases List.mem_append.mp waits with before | last
    · exact kept.notBase slot before
    · rw [isBase?_of_addChild added, if_pos (List.mem_singleton.mp last)]
  · refine List.pairwise_append.mpr ⟨inLine.increasing, List.pairwise_singleton _ _, ?_⟩
    intro slot before other last
    rw [List.mem_singleton.mp last]
    exact inLine.lt_size before
  · refine List.pairwise_append.mpr ⟨kept.levels, List.pairwise_singleton _ _, ?_⟩
    intro slot before other last
    rw [List.mem_singleton.mp last]
    have stillFirst : result.level? parent = some caller.level := by
      rw [level?_of_addChild added, if_neg (Nat.ne_of_lt (lt_size_of_level? first)), first]
    -- the new call is one level below the first, and nobody in line is further down
    obtain ⟨level, here, above, below⟩ := kept.exists_level stillFirst before
    exact ⟨level, caller.level + 1, here, new, below, Nat.succ_le_succ above⟩

end InLine

end CallTree

/-- The slots of the calls in a queue, in the order in which they leave. -/
def Queue.slots (queue : Queue Waiting) : List Nat := queue.toList.map Waiting.slot

theorem Queue.slots_of_pop? {queue rest : Queue Waiting} {waiting : Waiting}
    (popped : queue.pop? = some (waiting, rest)) : queue.slots = waiting.slot :: rest.slots := by
  rw [slots, toList_of_pop? popped, List.map_cons, ← slots]

namespace LinearShift

variable {r : LinearShift} {depth limit : Nat} {frontier next : Frontier} {ended : Expansion}

theorem slots_enqueue (queue : Queue Waiting) (call : Waiting) :
    (r.enqueue queue call).slots =
      if r.isBase call.argument then queue.slots else queue.slots ++ [call.slot] := by
  unfold enqueue
  split
  · rfl
  · rw [Queue.slots, Queue.toList_push, List.map_append, ← Queue.slots, List.map_singleton]

/-- The calls that wait are in line. -/
def Frontier.InLine (frontier : Frontier) : Prop := frontier.tree.InLine frontier.queue.slots

/-- While a call makes its calls it still counts as the first in line.  The others wait on
its level or on the next, and the new calls are on the next. -/
theorem inLine_of_addCalls {caller : Waiting} {id : String} {index : Nat} {shifts : List UInt32}
    {tree result : CallTree} {queue rest : Queue Waiting}
    (inLine : tree.InLine (caller.slot :: queue.slots))
    (added : r.addCalls caller id index shifts tree queue = .ok (result, rest)) :
    result.InLine (caller.slot :: rest.slots) := by
  induction shifts generalizing index tree queue with
  | nil =>
      cases added
      exact inLine
  | cons shift shifts inductionHypothesis =>
      unfold addCalls at added
      dsimp only at added
      split at added
      · cases added
      · rename_i extended grown
        apply inductionHypothesis _ added
        rw [slots_enqueue]
        dsimp only
        cases base : r.isBase (caller.argument - shift.toNat) with
        | true => exact inLine.addChild grown
        | false =>
            rw [base] at grown
            exact inLine.concat grown

theorem inLine_of_start {argument : Nat} (started : r.start argument = .ok frontier) :
    frontier.InLine := by
  unfold start at started
  dsimp only at started
  split at started
  · cases started
  · rename_i tree rooted
    cases started
    obtain ⟨-, calls⟩ := CallTree.exists_of_addRoot rooted
    rw [Frontier.InLine, slots_enqueue]
    dsimp only
    cases base : r.isBase argument with
    | true => exact .nil
    | false =>
        refine ⟨?_, List.pairwise_singleton _ _, List.pairwise_singleton _ _⟩
        intro slot waits
        rw [List.mem_singleton.mp waits, CallTree.isBase?, calls, base]
        rfl

/-! ### One turn -/

/-- A call leaves the queue to make its calls. -/
structure Turn where
  frontier : Frontier
  waiting : Waiting
  rest : Queue Waiting
  popped : frontier.queue.pop? = some (waiting, rest)

namespace Turn

variable {turn : Turn}

/-- A state within a turn: the call has left the queue and has made its calls for the first
`count` shifts. -/
def Passes (r : LinearShift) (turn : Turn) (midway : Frontier) : Prop :=
  ∃ call count, turn.frontier.tree.call turn.waiting.slot = .ok call ∧
    r.addCalls turn.waiting call.id 0 (r.shifts.take count) turn.frontier.tree turn.rest =
      .ok (midway.tree, midway.queue)

theorem slot_mem (turn : Turn) : turn.waiting.slot ∈ turn.frontier.queue.slots := by
  rw [Queue.slots_of_pop? turn.popped]
  exact List.mem_cons_self

/-- All that wait in the course of a turn are behind the call that has it. -/
theorem inLine_of_passes {midway : Frontier} (inLine : turn.frontier.InLine)
    (passes : turn.Passes r midway) :
    midway.tree.InLine (turn.waiting.slot :: midway.queue.slots) := by
  obtain ⟨call, count, -, added⟩ := passes
  have taken : turn.frontier.tree.InLine (turn.waiting.slot :: turn.rest.slots) :=
    Queue.slots_of_pop? turn.popped ▸ inLine
  exact inLine_of_addCalls taken added

/-- A turn ends with none of its calls made, or with all of them. -/
theorem passes_of_continued
    (stepped : r.step depth limit turn.frontier = .ok (.continued next)) : turn.Passes r next := by
  obtain ⟨waiting, rest, call, popped, read, outcome⟩ := exists_of_step_continued stepped
  cases turn.popped.symm.trans popped
  rcases outcome with ⟨-, rfl⟩ | ⟨-, -, added⟩
  · exact ⟨call, 0, read, rfl⟩
  · refine ⟨call, r.shifts.length, read, ?_⟩
    rw [List.take_length]
    exact added

theorem inLine_of_continued (inLine : turn.frontier.InLine)
    (stepped : r.step depth limit turn.frontier = .ok (.continued next)) :
    next.tree.InLine (turn.waiting.slot :: next.queue.slots) :=
  inLine_of_passes inLine (passes_of_continued stepped)

end Turn

theorem size_le_of_continued (stepped : r.step depth limit frontier = .ok (.continued next)) :
    frontier.tree.size ≤ next.tree.size := by
  rcases step_continued stepped with ⟨grown, -⟩ | ⟨same, -⟩
  · exact Nat.le_of_lt grown
  · rw [same]

theorem size_of_finished (stepped : r.step depth limit frontier = .ok (.finished ended)) :
    ended.tree.size = frontier.tree.size := by
  rw [CallTree.size, calls_of_finished stepped, ← CallTree.size]

theorem step_of_pop?_eq_none (nothing : frontier.queue.pop? = none) :
    r.step depth limit frontier = .ok (.finished { tree := frontier.tree, stop := none }) := by
  unfold step
  simp only [nothing]

/-! ### All turns -/

/-- The turns that lead from a state to the end of an expansion. -/
inductive Runs (r : LinearShift) (depth limit : Nat) : Frontier → List Turn → Expansion → Prop
  | emptied {frontier : Frontier} {ended : Expansion} (nothing : frontier.queue.pop? = none)
      (stepped : r.step depth limit frontier = .ok (.finished ended)) :
      Runs r depth limit frontier [] ended
  | stopped (turn : Turn) {ended : Expansion}
      (stepped : r.step depth limit turn.frontier = .ok (.finished ended)) :
      Runs r depth limit turn.frontier [turn] ended
  | continued (turn : Turn) {next : Frontier} {turns : List Turn} {ended : Expansion}
      (stepped : r.step depth limit turn.frontier = .ok (.continued next))
      (others : Runs r depth limit next turns ended) :
      Runs r depth limit turn.frontier (turn :: turns) ended

theorem exists_runs (run : r.addWaiting depth limit frontier = .ok ended) :
    ∃ turns, r.Runs depth limit frontier turns ended := by
  fun_induction LinearShift.addWaiting r depth limit frontier with
  | case1 frontier fault stepped => cases run
  | case2 frontier finished stepped =>
      cases run
      cases popped : frontier.queue.pop? with
      | none => exact ⟨[], .emptied popped stepped⟩
      | some taken => exact ⟨_, .stopped ⟨frontier, taken.1, taken.2, popped⟩ stepped⟩
  | case3 frontier next stepped inductionHypothesis =>
      obtain ⟨turns, others⟩ := inductionHypothesis run
      cases popped : frontier.queue.pop? with
      | none => cases stepped.symm.trans (step_of_pop?_eq_none popped)
      | some taken => exact ⟨_, .continued ⟨frontier, taken.1, taken.2, popped⟩ stepped others⟩

namespace Runs

variable {turns : List Turn}

/-- What every step keeps holds at every turn. -/
theorem forall_turn (Holds : Frontier → Prop)
    (kept : ∀ {turn : Turn} {next : Frontier}, Holds turn.frontier →
      r.step depth limit turn.frontier = .ok (.continued next) → Holds next)
    (run : r.Runs depth limit frontier turns ended) (start : Holds frontier) :
    ∀ turn ∈ turns, Holds turn.frontier := by
  induction run with
  | emptied nothing stepped => simp
  | stopped turn stepped => simpa using start
  | continued turn stepped others inductionHypothesis =>
      exact List.forall_mem_cons.mpr ⟨start, inductionHypothesis (kept start stepped)⟩

theorem inLine (run : r.Runs depth limit frontier turns ended) (start : frontier.InLine) :
    ∀ turn ∈ turns, turn.frontier.InLine := by
  apply run.forall_turn Frontier.InLine _ start
  intro turn next here stepped
  exact (Turn.inLine_of_continued here stepped).tail

/-- No turn goes back to a slot in front of all that wait. -/
theorem lt_slot (run : r.Runs depth limit frontier turns ended) (start : frontier.InLine)
    {bound : Nat} (above : ∀ slot ∈ frontier.queue.slots, bound < slot) :
    ∀ turn ∈ turns, bound < turn.waiting.slot := by
  intro turn member
  have behind : ∀ slot ∈ turn.frontier.queue.slots, bound < slot := by
    refine (run.forall_turn (fun frontier => frontier.InLine ∧
      ∀ slot ∈ frontier.queue.slots, bound < slot) ?_ ⟨start, above⟩ turn member).2
    intro turn next here stepped
    have after := Turn.inLine_of_continued here.1 stepped
    refine ⟨after.tail, fun slot waits => ?_⟩
    exact Nat.lt_trans (here.2 _ turn.slot_mem) (after.lt_of_mem_tail waits)
  exact behind _ turn.slot_mem

theorem pairwise_slot (run : r.Runs depth limit frontier turns ended) (start : frontier.InLine) :
    (turns.map (·.waiting.slot)).Pairwise (· < ·) := by
  rw [List.pairwise_map]
  induction run with
  | emptied nothing stepped => exact .nil
  | stopped turn stepped => exact List.pairwise_singleton _ _
  | continued turn stepped others inductionHypothesis =>
      have after := Turn.inLine_of_continued start stepped
      refine List.pairwise_cons.mpr ⟨?_, inductionHypothesis after.tail⟩
      -- what waits after this turn is behind its call, and later turns do not go back
      exact others.lt_slot after.tail fun slot waits => after.lt_of_mem_tail waits

theorem size_le (run : r.Runs depth limit frontier turns ended) :
    frontier.tree.size ≤ ended.tree.size := by
  induction run with
  | emptied nothing stepped => exact Nat.le_of_eq (size_of_finished stepped).symm
  | stopped turn stepped => exact Nat.le_of_eq (size_of_finished stepped).symm
  | continued turn stepped others inductionHypothesis =>
      exact Nat.le_trans (size_le_of_continued stepped) inductionHypothesis

theorem exists_of_mem (run : r.Runs depth limit frontier turns ended) {turn : Turn}
    (member : turn ∈ turns) : ∃ later, r.Runs depth limit turn.frontier (turn :: later) ended := by
  induction run with
  | emptied nothing stepped => cases member
  | stopped only stepped =>
      rw [List.mem_singleton.mp member]
      exact ⟨[], .stopped only stepped⟩
  | continued first stepped others inductionHypothesis =>
      rcases List.mem_cons.mp member with rfl | later
      · exact ⟨_, .continued turn stepped others⟩
      · exact inductionHypothesis later

theorem slot_lt_size (run : r.Runs depth limit frontier turns ended) (start : frontier.InLine)
    {turn : Turn} (member : turn ∈ turns) : turn.waiting.slot < ended.tree.size := by
  obtain ⟨later, rest⟩ := run.exists_of_mem member
  exact Nat.lt_of_lt_of_le (CallTree.InLine.lt_size (run.inLine start turn member) turn.slot_mem)
    rest.size_le

/-- Every turn takes up a slot of its own. -/
theorem length_le_size (run : r.Runs depth limit frontier turns ended) (start : frontier.InLine) :
    turns.length ≤ ended.tree.size := by
  have distinct : (turns.map (·.waiting.slot)).Nodup := (run.pairwise_slot start).imp Nat.ne_of_lt
  have inside : turns.map (·.waiting.slot) ⊆ List.range ended.tree.size := by
    intro slot taken
    obtain ⟨turn, member, rfl⟩ := List.mem_map.mp taken
    exact List.mem_range.mpr (run.slot_lt_size start member)
  simpa using (List.subperm_of_subset distinct inside).length_le

end Runs

/-- An expansion takes the slots of the calls that wait in strictly increasing order, and so
it ends after at most as many turns as its tree has calls. -/
theorem expand_takes_slots_once (r : LinearShift) (initial : Float) (depth : Nat)
    (nodeLimit : UInt64) :
    ∃ start turns ended, r.start (Number.wholePart initial) = .ok start ∧
      r.Runs depth (callLimit nodeLimit) start turns ended ∧
      r.expand initial depth nodeLimit = .ok { ended with tree := giveWidths ended.tree } ∧
      (∀ turn ∈ turns, turn.frontier.InLine ∧ ∀ midway, turn.Passes r midway → midway.InLine) ∧
      (turns.map (·.waiting.slot)).Pairwise (· < ·) ∧
      turns.length ≤ ended.tree.size := by
  obtain ⟨start, started, sweeps⟩ :=
    r.start_sweeps (Number.wholePart initial) depth (callLimit nodeLimit)
  obtain ⟨ended, waited, -⟩ := sweeps.addWaiting (Nat.min_le_right _ _)
  obtain ⟨turns, run⟩ := exists_runs waited
  have inLine := inLine_of_start started
  refine ⟨start, turns, ended, started, run, ?_, ?_, run.pairwise_slot inLine,
    run.length_le_size inLine⟩
  · rw [expand, started]
    dsimp only
    rw [waited]
  · intro turn member
    have here := run.inLine inLine turn member
    exact ⟨here, fun midway passes => (Turn.inLine_of_passes here passes).tail⟩

end LinearShift

end Unfolding
