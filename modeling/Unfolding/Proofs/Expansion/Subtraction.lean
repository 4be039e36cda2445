import Unfolding.Proofs.Expansion.Sweep

/-!
Unfolding a linear-shift recurrence is a breadth-first sweep over its calls.
-/

namespace Unfolding

open CallPath (extensions)

namespace LinearShift

variable {r : LinearShift} {first depth limit : Nat}

/-- The calls from a first argument, named by their paths. -/
def outline (r : LinearShift) (first : Nat) : Outline CallPath where
  arity := r.shifts.length
  child path i := path ++ [i]
  id := CallPath.id
  argument path := Float.ofNat (r.argumentAt first path)
  level := List.length
  isBase path := r.isBase (r.argumentAt first path)
  child_injective := by
    intro path other i j _ _ same
    obtain ⟨paths, last⟩ := List.append_inj' same rfl
    exact ⟨paths, List.singleton_inj.mp last⟩
  level_child := by simp
  id_injective := CallPath.id_injective

/-- A waiting call is the one at a path. -/
structure Stands (r : LinearShift) (first : Nat) (listed : List CallPath) (call : Waiting)
    (path : CallPath) : Prop where
  slot : listed[call.slot]? = some path
  argument : call.argument = r.argumentAt first path

theorem Stands.append {listed : List CallPath} {call : Waiting} {path : CallPath}
    (stands : r.Stands first listed call path) (more : List CallPath) :
    r.Stands first (listed ++ more) call path where
  slot := by
    obtain ⟨inside, -⟩ := List.getElem?_eq_some_iff.mp stands.slot
    rw [List.getElem?_append_left inside]
    exact stands.slot
  argument := stands.argument

/-- The queue holds the calls at the waiting paths, in their order. -/
def Holds (r : LinearShift) (first : Nat) (listed : List CallPath) (queue : Queue Waiting)
    (waiting : List CallPath) : Prop :=
  List.Forall₂ (r.Stands first listed) queue.toList waiting

namespace Holds

variable {listed waiting rest : List CallPath} {queue : Queue Waiting} {path : CallPath}

theorem append (holds : r.Holds first listed queue waiting) (more : List CallPath) :
    r.Holds first (listed ++ more) queue waiting :=
  List.Forall₂.imp (fun _ _ stands => stands.append more) holds

theorem pop?_eq_none (holds : r.Holds first listed queue []) : queue.pop? = none :=
  (Queue.pop?_eq_none_iff queue).mpr (List.forall₂_nil_right_iff.mp holds)

theorem exists_pop? (holds : r.Holds first listed queue (path :: rest)) :
    ∃ call others, queue.pop? = some (call, others) ∧ r.Stands first listed call path ∧
      r.Holds first listed others rest := by
  cases popped : queue.pop? with
  | none =>
      rw [Holds, (Queue.pop?_eq_none_iff queue).mp popped] at holds
      cases holds
  | some taken =>
      obtain ⟨call, others⟩ := taken
      rw [Holds, Queue.toList_of_pop? popped] at holds
      obtain ⟨stands, others_hold⟩ := List.forall₂_cons.mp holds
      exact ⟨call, others, rfl, stands, others_hold⟩

theorem enqueue (holds : r.Holds first listed queue waiting) {call : Waiting}
    (stands : r.Stands first listed call path) :
    r.Holds first listed (r.enqueue queue call) (waiting ++ [path].filter (r.isOpen first)) := by
  unfold LinearShift.enqueue
  rw [stands.argument]
  cases base : r.isBase (r.argumentAt first path) with
  | true =>
      have closed : r.isOpen first path = false := by simp [isOpen, base]
      simpa [closed] using holds
  | false =>
      have above : r.isOpen first path = true := by simp [isOpen, base]
      rw [if_neg Bool.false_ne_true, List.filter_cons_of_pos above, Holds, Queue.toList_push]
      exact List.rel_append holds (.cons stands .nil)

end Holds

/-! ### One step -/

theorem extensions_succ (count : Nat) (path : CallPath) :
    extensions (count + 1) path = extensions count path ++ [path ++ [count]] := by
  simp [extensions, List.range_succ]

section Calls

variable {caller : Waiting} {path : CallPath} {listed waiting : List CallPath} {index : Nat}
variable {tree : CallTree} {queue : Queue Waiting}

theorem addCall_follows (stands : r.Stands first listed caller path)
    (notListed : ∀ i, path ++ [i] ∉ listed) (childless : ∀ i j, path ++ [i] ++ [j] ∉ listed)
    (follows : tree.Follows (r.outline first) (listed ++ extensions index path))
    (room : tree.size < CallTree.capacity) {shift : UInt32}
    (found : r.shifts[index]? = some shift) :
    ∃ result, tree.addChild caller.slot (path.id ++ "." ++ toString index)
        (Float.ofNat (caller.argument - shift.toNat))
        (r.isBase (caller.argument - shift.toNat)) = .ok result ∧
      result = { tree with calls := result.calls } ∧
      result.Follows (r.outline first) (listed ++ extensions (index + 1) path) := by
  obtain ⟨inside, -⟩ := List.getElem?_eq_some_iff.mp found
  have argument : caller.argument - shift.toNat = r.argumentAt first (path ++ [index]) := by
    rw [argumentAt_concat, stands.argument, shiftAt_eq_toNat found]
  have made : ∀ i < r.shifts.length,
      path ++ [i] ∈ listed ++ extensions index path ↔ i < index := by
    intro i _
    simp [CallPath.mem_extensions_iff, notListed]
  have stillChildless : (r.outline first).Childless (listed ++ extensions index path)
      (path ++ [index]) := by
    intro i _ member
    rcases List.mem_append.mp member with member | member
    · exact childless index i member
    · obtain ⟨j, -, same⟩ := CallPath.mem_extensions_iff.mp member
      have lengths := congrArg List.length same
      simp [outline] at lengths
  obtain ⟨result, added, unchanged, resultFollows⟩ :=
    follows.addChild room (stands.append (extensions index path)).slot inside made stillChildless
  refine ⟨result, ?_, unchanged, ?_⟩
  · rw [argument, ← CallPath.id_concat]
    exact added
  · rw [extensions_succ, ← List.append_assoc]
    exact resultFollows

theorem holds_addCall (stands : r.Stands first listed caller path)
    (follows : tree.Follows (r.outline first) (listed ++ extensions index path))
    (holds : r.Holds first (listed ++ extensions index path) queue
      (waiting ++ (extensions index path).filter (r.isOpen first)))
    {shift : UInt32} (found : r.shifts[index]? = some shift) :
    r.Holds first (listed ++ extensions (index + 1) path)
      (r.enqueue queue { slot := tree.size, argument := caller.argument - shift.toNat })
      (waiting ++ (extensions (index + 1) path).filter (r.isOpen first)) := by
  rw [extensions_succ, List.filter_append, ← List.append_assoc, ← List.append_assoc]
  apply (holds.append [path ++ [index]]).enqueue
  refine ⟨?_, ?_⟩
  · rw [follows.size]
    simp
  · rw [argumentAt_concat, stands.argument, shiftAt_eq_toNat found]

/-- The calls of one call are added behind the listed ones.  The induction is
on the shifts still to be taken, `index` of them having been taken before. -/
theorem addCalls_follows (stands : r.Stands first listed caller path)
    (notListed : ∀ i, path ++ [i] ∉ listed) (childless : ∀ i j, path ++ [i] ++ [j] ∉ listed)
    (room : listed.length + r.shifts.length ≤ CallTree.capacity)
    {shifts : List UInt32} (remaining : r.shifts.drop index = shifts)
    (bounded : index ≤ r.shifts.length)
    (follows : tree.Follows (r.outline first) (listed ++ extensions index path))
    (holds : r.Holds first (listed ++ extensions index path) queue
      (waiting ++ (extensions index path).filter (r.isOpen first))) :
    ∃ result rest, r.addCalls caller path.id index shifts tree queue = .ok (result, rest) ∧
      result = { tree with calls := result.calls } ∧
      result.Follows (r.outline first) (listed ++ extensions r.shifts.length path) ∧
      r.Holds first (listed ++ extensions r.shifts.length path) rest
        (waiting ++ (extensions r.shifts.length path).filter (r.isOpen first)) := by
  induction shifts generalizing index tree queue with
  | nil =>
      obtain rfl : index = r.shifts.length :=
        Nat.le_antisymm bounded (List.drop_eq_nil_iff.mp remaining)
      exact ⟨tree, queue, rfl, rfl, follows, holds⟩
  | cons shift shifts inductionHypothesis =>
      have found : r.shifts[index]? = some shift := by
        rw [← List.head?_drop, remaining, List.head?_cons]
      obtain ⟨inside, -⟩ := List.getElem?_eq_some_iff.mp found
      have roomLeft : tree.size < CallTree.capacity := by
        have size_eq := follows.size
        simp [extensions] at size_eq
        omega
      obtain ⟨extended, added, unchanged, extendedFollows⟩ :=
        addCall_follows stands notListed childless follows roomLeft found
      have nextRemaining : r.shifts.drop (index + 1) = shifts := by
        rw [← List.tail_drop, remaining, List.tail_cons]
      obtain ⟨result, rest, run, kept, resultFollows, resultHolds⟩ :=
        inductionHypothesis nextRemaining inside extendedFollows
          (holds_addCall stands follows holds found)
      refine ⟨result, rest, ?_, ?_, resultFollows, resultHolds⟩
      · unfold addCalls
        dsimp only
        rw [added]
        exact run
      · rw [kept, unchanged]

end Calls

/-- The state of an unfolding is that of a sweep. -/
structure Sweeps (r : LinearShift) (first depth limit : Nat) (frontier : Frontier)
    (listed done waiting : List CallPath) : Prop where
  sweep : r.Sweep first depth listed done waiting
  follows : frontier.tree.Follows (r.outline first) listed
  holds : r.Holds first listed frontier.queue waiting
  whole : frontier.tree.isTruncated = false
  /-- Even under the limit zero there is a root. -/
  within : listed.length ≤ max 1 limit

namespace Sweeps

variable {frontier : Frontier} {listed done waiting rest : List CallPath} {path : CallPath}

theorem step_nil (sweeps : r.Sweeps first depth limit frontier listed done []) :
    r.step depth limit frontier = .ok (.finished { tree := frontier.tree, stop := none }) := by
  unfold step
  dsimp only
  rw [sweeps.holds.pop?_eq_none]

theorem step_cons (sweeps : r.Sweeps first depth limit frontier listed done (path :: rest)) :
    ∃ caller others, r.Stands first listed caller path ∧ r.Holds first listed others rest ∧
      r.step depth limit frontier =
        if depth ≤ path.length then .ok (.continued { tree := frontier.tree, queue := others })
        else if limit < listed.length + r.shifts.length then
          .ok (.finished (.stopped frontier.tree (frontier.tree.levelCount - 1)))
        else
          (r.addCalls caller path.id 0 r.shifts frontier.tree others).map
            fun (tree, queue) => .continued { tree, queue } := by
  obtain ⟨caller, others, popped, stands, othersHold⟩ := sweeps.holds.exists_pop?
  obtain ⟨call, found, described⟩ := sweeps.follows.call stands.slot
  refine ⟨caller, others, stands, othersHold, ?_⟩
  have level : call.level = path.length := described.level
  have id_eq : call.id = path.id := described.id
  have read : frontier.tree.call caller.slot = .ok call := by
    rw [CallTree.call, found]
  rw [← level, ← id_eq, ← sweeps.follows.size]
  unfold step
  simp only [popped, read]
  cases r.addCalls caller call.id 0 r.shifts frontier.tree others <;> rfl

theorem step_skip (sweeps : r.Sweeps first depth limit frontier listed done (path :: rest))
    (deep : depth ≤ path.length) :
    ∃ next, r.step depth limit frontier = .ok (.continued next) ∧
      r.Sweeps first depth limit next listed (done ++ [path]) rest := by
  obtain ⟨caller, others, -, othersHold, stepped⟩ := sweeps.step_cons
  rw [stepped, if_pos deep]
  exact ⟨_, rfl, sweeps.sweep.skip deep, sweeps.follows, othersHold, sweeps.whole, sweeps.within⟩

theorem step_full (sweeps : r.Sweeps first depth limit frontier listed done (path :: rest))
    (shallow : path.length < depth) (full : limit < listed.length + r.shifts.length) :
    ∃ level, r.step depth limit frontier = .ok (.finished (.stopped frontier.tree level)) := by
  obtain ⟨caller, others, -, -, stepped⟩ := sweeps.step_cons
  rw [stepped, if_neg (Nat.not_le.mpr shallow), if_pos full]
  exact ⟨_, rfl⟩

theorem step_expand (sweeps : r.Sweeps first depth limit frontier listed done (path :: rest))
    (representable : limit ≤ CallTree.capacity)
    (shallow : path.length < depth) (room : ¬ limit < listed.length + r.shifts.length) :
    ∃ next, r.step depth limit frontier = .ok (.continued next) ∧
      r.Sweeps first depth limit next (listed ++ extensions r.shifts.length path)
        (done ++ [path])
        (rest ++ (extensions r.shifts.length path).filter (r.isOpen first)) := by
  obtain ⟨caller, others, stands, othersHold, stepped⟩ := sweeps.step_cons
  have follows : frontier.tree.Follows (r.outline first) (listed ++ extensions 0 path) := by
    simpa [extensions] using sweeps.follows
  have holds : r.Holds first (listed ++ extensions 0 path) others
      (rest ++ (extensions 0 path).filter (r.isOpen first)) := by
    simpa [extensions] using othersHold
  obtain ⟨tree, queue, added, unchanged, grownFollows, grownHolds⟩ :=
    addCalls_follows stands sweeps.sweep.concat_not_mem sweeps.sweep.concat_concat_not_mem
      (by omega) (List.drop_zero ..) (Nat.zero_le _) follows holds
  rw [stepped, if_neg (Nat.not_le.mpr shallow), if_neg room, added]
  refine ⟨_, rfl, sweeps.sweep.expand shallow, grownFollows, grownHolds, ?_, ?_⟩
  · rw [unchanged]
    exact sweeps.whole
  · simp only [List.length_append, extensions, List.length_map, List.length_range]
    omega

end Sweeps

/-! ### Whole runs -/

/-- How an unfolding under a limit ends: with all calls in the tree, or with a
call whose own calls did not fit. -/
inductive Outcome (r : LinearShift) (first depth limit : Nat) (expansion : Expansion) : Prop
  | complete {listed done : List CallPath} (sweep : r.Sweep first depth listed done [])
      (follows : expansion.tree.Follows (r.outline first) listed)
      (whole : expansion.tree.isTruncated = false) (unstopped : expansion.stop = none)
      (within : listed.length ≤ max 1 limit)
  | cut {listed done rest : List CallPath} {path : CallPath}
      (sweep : r.Sweep first depth listed done (path :: rest))
      (follows : expansion.tree.Follows (r.outline first) listed)
      (truncated : expansion.tree.isTruncated = true) (stopped : expansion.stop ≠ none)
      (shallow : path.length < depth) (full : limit < listed.length + r.shifts.length)

/-- Behind an unfolding is a listing, and it is whole unless the limit stopped it. -/
theorem Outcome.exists_sweep {expansion : Expansion}
    (outcome : r.Outcome first depth limit expansion) :
    ∃ listed done waiting, r.Sweep first depth listed done waiting ∧
      expansion.tree.Follows (r.outline first) listed ∧
      (expansion.stop = none → waiting = []) ∧
      (expansion.stop ≠ none → limit < listed.length + r.shifts.length) := by
  cases outcome with
  | complete sweep follows whole unstopped within =>
      exact ⟨_, _, _, sweep, follows, fun _ => rfl, fun stopped => absurd unstopped stopped⟩
  | cut sweep follows truncated stopped shallow full =>
      exact ⟨_, _, _, sweep, follows, fun unstopped => absurd unstopped stopped, fun _ => full⟩

theorem Outcome.size_pos {expansion : Expansion}
    (outcome : r.Outcome first depth limit expansion) : 0 < expansion.tree.size := by
  rcases outcome.exists_sweep with ⟨listed, done, waiting, sweep, follows, -⟩
  rw [follows.size]
  exact List.length_pos_of_mem sweep.nil_mem

theorem Sweeps.step {frontier : Frontier} {listed done waiting : List CallPath}
    (sweeps : r.Sweeps first depth limit frontier listed done waiting)
    (representable : limit ≤ CallTree.capacity) :
    (∃ expansion, r.step depth limit frontier = .ok (.finished expansion) ∧
        r.Outcome first depth limit expansion) ∨
      ∃ next listed done waiting, r.step depth limit frontier = .ok (.continued next) ∧
        r.Sweeps first depth limit next listed done waiting := by
  cases waiting with
  | nil =>
      exact .inl ⟨_, sweeps.step_nil,
        .complete sweeps.sweep sweeps.follows sweeps.whole rfl sweeps.within⟩
  | cons path rest =>
      by_cases deep : depth ≤ path.length
      · obtain ⟨next, stepped, nextSweeps⟩ := sweeps.step_skip deep
        exact .inr ⟨next, _, _, _, stepped, nextSweeps⟩
      have shallow := Nat.lt_of_not_le deep
      by_cases full : limit < listed.length + r.shifts.length
      · obtain ⟨level, stepped⟩ := sweeps.step_full shallow full
        exact .inl ⟨_, stepped, .cut sweeps.sweep (sweeps.follows.of_calls_eq rfl) rfl
          (by simp [Expansion.stopped]) shallow full⟩
      · obtain ⟨next, stepped, nextSweeps⟩ := sweeps.step_expand representable shallow full
        exact .inr ⟨next, _, _, _, stepped, nextSweeps⟩

/-- Stepping comes to an end, and to no other than one of the outcomes. -/
theorem Sweeps.addWaiting {frontier : Frontier} {listed done waiting : List CallPath}
    (sweeps : r.Sweeps first depth limit frontier listed done waiting)
    (representable : limit ≤ CallTree.capacity) :
    ∃ expansion, r.addWaiting depth limit frontier = .ok expansion ∧
      r.Outcome first depth limit expansion := by
  fun_induction LinearShift.addWaiting r depth limit frontier generalizing listed done waiting with
  | case1 frontier fault stepped =>
      rcases sweeps.step representable with ⟨expansion, other, -⟩ | ⟨next, _, _, _, other, -⟩
      all_goals
        rw [stepped] at other
        cases other
  | case2 frontier expansion stepped =>
      rcases sweeps.step representable with ⟨result, other, outcome⟩ | ⟨next, _, _, _, other, -⟩
      all_goals
        rw [stepped] at other
        cases other
      exact ⟨expansion, rfl, outcome⟩
  | case3 frontier next stepped inductionHypothesis =>
      rcases sweeps.step representable with
        ⟨expansion, other, -⟩ | ⟨same, _, _, _, other, nextSweeps⟩
      all_goals
        rw [stepped] at other
        cases other
      exact inductionHypothesis nextSweeps

theorem start_sweeps (r : LinearShift) (first depth limit : Nat) :
    ∃ frontier, r.start first = .ok frontier ∧
      r.Sweeps first depth limit frontier [[]] [] ([[]].filter (r.isOpen first)) := by
  have empty : CallTree.size { family := .linearShift } = 0 := rfl
  have top : (r.outline first).level [] = 0 := rfl
  obtain ⟨tree, added, unchanged, follows⟩ := CallTree.Follows.addRoot (r.outline first) empty top
  have nothing : r.Holds first [[]] {} [] := List.Forall₂.nil
  refine ⟨{ tree, queue := r.enqueue {} { slot := 0, argument := first } }, ?_, .start, follows,
    nothing.enqueue ⟨rfl, rfl⟩, ?_, ?_⟩
  · have rooted : CallTree.addRoot { family := .linearShift } "n" (Float.ofNat first)
        (r.isBase first) = .ok tree := added
    rw [start, rooted]
  · rw [unchanged]
  · simp

theorem giveWidths_outcome {expansion : Expansion}
    (outcome : r.Outcome first depth limit expansion) :
    r.Outcome first depth limit { expansion with tree := giveWidths expansion.tree } := by
  cases outcome with
  | complete sweep follows whole unstopped within =>
      exact .complete sweep (follows.of_calls_eq rfl) whole unstopped within
  | cut sweep follows truncated stopped shallow full =>
      exact .cut sweep (follows.of_calls_eq rfl) truncated stopped shallow full

/-- Unfolding a linear-shift recurrence never fails. -/
theorem expand_outcome (r : LinearShift) (initial : Float) (depth : Nat) (nodeLimit : UInt64) :
    ∃ expansion, r.expand initial depth nodeLimit = .ok expansion ∧
      r.Outcome (Number.wholePart initial) depth (callLimit nodeLimit) expansion := by
  obtain ⟨frontier, started, sweeps⟩ :=
    r.start_sweeps (Number.wholePart initial) depth (callLimit nodeLimit)
  obtain ⟨expansion, run, outcome⟩ := sweeps.addWaiting (Nat.min_le_right _ _)
  refine ⟨_, ?_, giveWidths_outcome outcome⟩
  rw [expand, started]
  dsimp only
  rw [run]

theorem outcome_of_expand {initial : Float} {nodeLimit : UInt64} {expansion : Expansion}
    (run : r.expand initial depth nodeLimit = .ok expansion) :
    r.Outcome (Number.wholePart initial) depth (callLimit nodeLimit) expansion := by
  obtain ⟨same, sameRun, outcome⟩ := r.expand_outcome initial depth nodeLimit
  cases run.symm.trans sameRun
  exact outcome

/-! ### Leaves -/

theorem childless_iff {listed done waiting : List CallPath} {path : CallPath}
    (nonempty : r.shifts ≠ []) (sweep : r.Sweep first depth listed done waiting) :
    (r.outline first).Childless listed path ↔ path ∈ done → depth ≤ path.length := by
  have shifts := List.length_pos_iff.mpr nonempty
  constructor
  · intro childless had
    apply Nat.le_of_not_lt
    intro shallow
    exact childless 0 shifts (sweep.concat_mem_iff.mpr ⟨had, shallow, shifts⟩)
  · intro deep i _ made
    obtain ⟨had, shallow, -⟩ := sweep.concat_mem_iff.mp made
    exact Nat.not_le_of_lt shallow (deep had)

theorem endsAtBases {listed done waiting : List CallPath} (nonempty : r.shifts ≠ [])
    (sweep : r.Sweep first depth listed done waiting) :
    (r.outline first).EndsAtBases listed := by
  intro path _ base
  rw [childless_iff nonempty sweep]
  intro had
  have notBase : (r.outline first).isBase path = false :=
    isBase_eq_false_iff.mpr (sweep.mem_of_done had).2
  rw [base] at notBase
  cases notBase

/-- A finished sweep lacks calls only below the full depth. -/
theorem isCutShort_iff_of_finished {listed done : List CallPath} (nonempty : r.shifts ≠ [])
    (sweep : r.Sweep first depth listed done []) :
    (r.outline first).IsCutShort listed ↔
      ∃ shift ∈ r.shifts, r.baseArgument < first - depth * shift.toNat := by
  rw [← exists_isMade_above_iff nonempty]
  constructor
  · rintro ⟨path, member, notBase, childless⟩
    have above := isBase_eq_false_iff.mp notBase
    have made := sweep.isMade_of_mem member
    refine ⟨path, made, Nat.le_antisymm made.within ?_, above⟩
    apply (childless_iff nonempty sweep).mp childless
    rw [← List.append_nil done, ← sweep.open_eq]
    exact List.mem_filter.mpr ⟨member, isOpen_eq_true_iff.mpr above⟩
  · rintro ⟨path, made, full, above⟩
    refine ⟨path, sweep.mem_iff.mpr made, isBase_eq_false_iff.mpr above, ?_⟩
    rw [childless_iff nonempty sweep]
    intro _
    exact Nat.le_of_eq full.symm

/-- A call that waits has not made its calls. -/
theorem isCutShort_of_waiting {listed done rest : List CallPath} {path : CallPath}
    (nonempty : r.shifts ≠ []) (sweep : r.Sweep first depth listed done (path :: rest)) :
    (r.outline first).IsCutShort listed := by
  obtain ⟨member, above⟩ := sweep.mem_of_waiting List.mem_cons_self
  refine ⟨path, member, isBase_eq_false_iff.mpr above, ?_⟩
  rw [childless_iff nonempty sweep]
  intro had
  exact absurd rfl ((List.nodup_append.mp sweep.nodup_open).2.2 path had path List.mem_cons_self)

namespace Outcome

variable {expansion : Expansion}

theorem isTruncated_eq_isSome_stop (outcome : r.Outcome first depth limit expansion) :
    expansion.tree.isTruncated = expansion.stop.isSome := by
  cases outcome with
  | complete sweep follows whole unstopped within => rw [whole, unstopped, Option.isSome_none]
  | cut sweep follows truncated stopped shallow full =>
      rw [truncated, Option.isSome_iff_ne_none.mpr stopped]

/-- The limit stops an unfolding exactly if there are more calls than it allows. -/
theorem stop_eq_none_iff (outcome : r.Outcome first depth limit expansion)
    (nonempty : r.shifts ≠ []) :
    expansion.stop = none ↔ r.callCount depth first ≤ max 1 limit := by
  cases outcome with
  | complete sweep follows whole unstopped within =>
      rw [sweep.length_eq_callCount] at within
      simp [unstopped, within]
  | cut sweep follows truncated stopped shallow full =>
      have more := sweep.length_add_le_callCount shallow
      have some := List.length_pos_of_mem sweep.nil_mem
      have shifts := List.length_pos_iff.mpr nonempty
      simp only [stopped, false_iff]
      omega

end Outcome

end LinearShift

end Unfolding
