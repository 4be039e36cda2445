import Unfolding.Proofs.Expansion.Additions
import Unfolding.Proofs.Number.Double
import Unfolding.Proofs.Words.Levels

/-!
Unfolding a linear-shift recurrence in words.

Slots of calls wait in a queue, and their arguments stand in an array of signed
long words beside the columns.
-/

namespace Unfolding.Words

/-- The length of a list that is held in memory, where no list has more items than
there are non-negative signed long words. -/
def lengthWord {α : Type} (items : List α) : UInt64 :=
  .ofNat (min items.length Int64.maxValue.toInt.toNat)

theorem toNat_lengthWord {α : Type} (items : List α) :
    (lengthWord items).toNat = min items.length Int64.maxValue.toInt.toNat :=
  toNat_ofNat_long (Nat.lt_of_le_of_lt (Nat.min_le_right _ _) (by decide))

namespace Subtraction

/-- The state of an unfolding. -/
structure Frontier where
  columns : Columns
  queue : Queue UInt32
  arguments : Array Int64

/-- What comes of one step. -/
inductive Progress where
  | finished (columns : Columns) (stop : Option LimitStop)
  | continued (frontier : Frontier)

variable (r : LinearShift)

/-- Whether a call with an argument is a base case. -/
def isBase (argument : Int64) : Bool := decide (argument ≤ max r.threshold 0)

/-- Let a call wait unless it is a base case. -/
def enqueue (queue : Queue UInt32) (slot : UInt32) (argument : Int64) : Queue UInt32 :=
  if isBase r argument then queue else queue.push slot

/-- Make the call of a call for one shift. -/
def pushCall (caller : UInt32) (argument : Int64) (frontier : Frontier) (shift : UInt32 × Nat) :
    Checked Frontier := do
  let raw ← subSigned argument (.ofNat shift.1.toNat)
  let argument := max raw 0
  let id ← frontier.columns.fetch frontier.columns.ids caller
  let (columns, slot) ← frontier.columns.pushChild caller (id ++ "." ++ toString shift.2)
    (Float.ofInt argument.toInt) (isBase r argument)
  return {
    columns
    queue := enqueue r frontier.queue slot argument
    arguments := frontier.arguments.push argument }

/-- Take the first of the waiting calls and make its calls. -/
def step (depth : UInt32) (limit : UInt64) (frontier : Frontier) : Checked Progress :=
  match frontier.queue.pop? with
  | none => .ok (.finished frontier.columns none)
  | some (caller, queue) => do
      let columns := frontier.columns
      let level ← columns.fetch columns.level caller
      if depth ≤ level then return .continued { frontier with queue }
      else
        let total ← addLong columns.len.toUInt64 (lengthWord r.shifts)
        if limit < total then
          let count ← columns.levelCount
          return .finished { columns with isTruncated := true }
            (some { emitted := columns.len.toNat, level := count.toNat - 1 })
        else
          let argument ← read frontier.arguments caller.toNat
          let next ← r.shifts.zipIdx.foldlM (pushCall r caller argument) { frontier with queue }
          return .continued next

/-! ### Termination -/

variable {r}

theorem len_of_pushCall {caller : UInt32} {argument : Int64} {frontier next : Frontier}
    {shift : UInt32 × Nat} (pushed : pushCall r caller argument frontier shift = .ok next) :
    next.columns.len.toNat = frontier.columns.len.toNat + 1 := by
  obtain ⟨raw, -, pushed⟩ := exists_of_bind pushed
  obtain ⟨id, -, pushed⟩ := exists_of_bind pushed
  obtain ⟨⟨columns, slot⟩, childPushed, pushed⟩ := exists_of_bind pushed
  cases pushed
  exact Columns.len_of_pushChild childPushed

theorem len_of_foldlM_pushCall {caller : UInt32} {argument : Int64} {shifts : List (UInt32 × Nat)}
    {frontier next : Frontier}
    (pushed : shifts.foldlM (pushCall r caller argument) frontier = .ok next) :
    next.columns.len.toNat = frontier.columns.len.toNat + shifts.length := by
  induction shifts generalizing frontier with
  | nil =>
      cases pushed
      rfl
  | cons shift shifts inductionHypothesis =>
      rw [List.foldlM_cons] at pushed
      obtain ⟨extended, callPushed, pushed⟩ := exists_of_bind pushed
      rw [inductionHypothesis pushed, len_of_pushCall callPushed, List.length_cons]
      omega

/-- A step either adds calls below the limit, or only takes a call from the queue. -/
theorem step_continued {depth : UInt32} {limit : UInt64} {frontier next : Frontier}
    (stepped : step r depth limit frontier = .ok (.continued next)) :
    (frontier.columns.len.toNat < next.columns.len.toNat ∧
        frontier.columns.len.toNat < limit.toNat) ∨
      (next.columns.len = frontier.columns.len ∧
        next.queue.toList.length < frontier.queue.toList.length) := by
  unfold step at stepped
  split at stepped
  · cases stepped
  · rename_i caller queue popped
    have shorter : queue.toList.length < frontier.queue.toList.length := by
      rw [Queue.toList_of_pop? popped]
      simp
    obtain ⟨level, -, stepped⟩ := exists_of_bind stepped
    split at stepped
    · cases stepped
      exact .inr ⟨rfl, shorter⟩
    · obtain ⟨total, added, stepped⟩ := exists_of_bind stepped
      split at stepped
      · obtain ⟨count, -, stepped⟩ := exists_of_bind stepped
        cases stepped
      · rename_i room
        obtain ⟨argument, -, stepped⟩ := exists_of_bind stepped
        obtain ⟨grown, pushed, stepped⟩ := exists_of_bind stepped
        cases stepped
        cases shiftsEq : r.shifts with
        | nil =>
            rw [shiftsEq] at pushed
            cases pushed
            exact .inr ⟨rfl, shorter⟩
        | cons shift shifts =>
            have longer := len_of_foldlM_pushCall pushed
            have sum := toNat_of_addLong added
            have least : 0 < min (shifts.length + 1) Int64.maxValue.toInt.toNat :=
              Nat.lt_min.mpr ⟨Nat.succ_pos _, by decide⟩
            rw [UInt32.toNat_toUInt64, toNat_lengthWord, shiftsEq, List.length_cons] at sum
            refine .inl ⟨?_, ?_⟩
            · rw [longer, shiftsEq, List.length_zipIdx, List.length_cons]
              dsimp only
              omega
            · rw [UInt64.lt_iff_toNat_lt] at room
              omega

/-- Step until nothing waits or the limit is reached. -/
def run (r : LinearShift) (depth : UInt32) (limit : UInt64) (frontier : Frontier) :
    Checked (Columns × Option LimitStop) :=
  match _stepped : step r depth limit frontier with
  | .error trap => .error trap
  | .ok (.finished columns stop) => .ok (columns, stop)
  | .ok (.continued next) => run r depth limit next
termination_by (limit.toNat - frontier.columns.len.toNat, frontier.queue.toList.length)
decreasing_by
  rcases step_continued _stepped with ⟨grown, within⟩ | ⟨same, shorter⟩
  · exact Prod.Lex.left _ _ (by omega)
  · rw [same]
    exact Prod.Lex.right _ shorter

/-- The columns of the tree of a recurrence. -/
def expand (r : LinearShift) (initial : Float) (depth : UInt32) (nodeLimit : UInt64) :
    Checked (Columns × Option LimitStop) := do
  let argument := initial.toModel.toInt64
  let (columns, root) ← Columns.pushRoot { family := .linearShift } "n" (Float.ofInt argument.toInt)
    (isBase r argument)
  let (columns, stop) ← run r depth (.ofNat (callLimit nodeLimit))
    { columns, queue := enqueue r {} root argument, arguments := #[argument] }
  let tallies ← columns.levels
  return ({ columns with rowWidths := tallies.map fun tally => tally.calls.toUInt64 }, stop)

/-! ### Arguments -/

theorem toInt_ofNat {n : Nat} (small : n ≤ Number.wholeLimit) : (Int64.ofNat n).toInt = n :=
  Int64.toInt_ofNat_of_lt (Nat.lt_succ_of_le small)

theorem toInt_max_zero (word : Int64) : (max word 0).toInt = max word.toInt 0 := by
  change (if word ≤ 0 then 0 else word : Int64).toInt = _
  rw [Int.max_def]
  by_cases negative : word.toInt ≤ 0
  · rw [if_pos (Int64.le_iff_toInt_le.mpr negative), if_pos negative]
    rfl
  · rw [if_neg (mt Int64.le_iff_toInt_le.mp negative), if_neg negative]

/-- An argument less a shift, or zero. -/
theorem subSigned_ofNat {argument : Nat} (small : argument ≤ Number.wholeLimit) (shift : UInt32) :
    ∃ raw, subSigned (.ofNat argument) (.ofNat shift.toNat) = .ok raw ∧
      max raw 0 = .ofNat (argument - shift.toNat) := by
  have limits : Number.wholeLimit = 2 ^ 63 - 1 := rfl
  have narrow := shift.toNat_lt
  have left := toInt_ofNat small
  have right : (Int64.ofNat shift.toNat).toInt = shift.toNat := toInt_ofNat (by omega)
  have difference : (Int64.ofNat argument - .ofNat shift.toNat).toInt =
      (argument : Int) - shift.toNat := by
    rw [Int64.toInt_sub, left, right]
    exact Int.bmod_eq_of_le (by omega) (by omega)
  refine ⟨.ofNat argument - .ofNat shift.toNat, ?_, ?_⟩
  · rw [subSigned, left, right, if_pos]
    rw [Int64.toInt_minValue, Int64.toInt_maxValue]
    omega
  · rw [← Int64.toInt_inj, toInt_max_zero, difference, toInt_ofNat (by omega)]
    omega

theorem isBase_ofNat {argument : Nat} (small : argument ≤ Number.wholeLimit) :
    isBase r (.ofNat argument) = r.isBase argument := by
  rw [isBase, LinearShift.isBase, LinearShift.baseArgument, decide_eq_decide,
    Int64.le_iff_toInt_le, toInt_max_zero, toInt_ofNat small]
  omega

/-! ### Calls -/

/-- An unfolding in words stands where an unfolding of a tree stands. -/
structure Matches (words : Frontier) (frontier : LinearShift.Frontier) : Prop where
  columns : words.columns = ofTree frontier.tree
  linked : frontier.tree.Linked
  bounded : frontier.tree.size ≤ CallTree.capacity
  queue : words.queue.toList = frontier.queue.toList.map fun waiting => .ofNat waiting.slot
  arguments : words.arguments.size = frontier.tree.size
  waiting : ∀ waiting ∈ frontier.queue.toList, waiting.slot < frontier.tree.size ∧
    waiting.argument ≤ Number.wholeLimit ∧
    words.arguments[waiting.slot]? = some (.ofNat waiting.argument)

variable {tree result : CallTree} {queue : Queue Waiting} {caller : Waiting} {words : Frontier}

/-- A new call waits or does not wait alike. -/
theorem Matches.enqueue (same : Matches words { tree, queue }) {parent : Nat} {id : String}
    {value : Float} {isBase : Bool} {argument : Nat} (small : argument ≤ Number.wholeLimit)
    (added : tree.addChild parent id value isBase = .ok result) :
    Matches
      { columns := ofTree result
        queue := enqueue r words.queue (.ofNat tree.size) (.ofNat argument)
        arguments := words.arguments.push (.ofNat argument) }
      { tree := result, queue := r.enqueue queue { slot := tree.size, argument } } := by
  have grown := CallTree.size_addChild added
  have newest : words.arguments.size = tree.size := same.arguments
  have old : ∀ waiting ∈ queue.toList, waiting.slot < result.size ∧
      waiting.argument ≤ Number.wholeLimit ∧
      (words.arguments.push (.ofNat argument))[waiting.slot]? = some (.ofNat waiting.argument) := by
    intro waiting member
    obtain ⟨inside, smallWaiting, found⟩ := same.waiting waiting member
    have earlier : waiting.slot ≠ words.arguments.size := by
      rw [newest]
      exact Nat.ne_of_lt inside
    refine ⟨?_, smallWaiting, ?_⟩
    · rw [grown]
      exact Nat.lt_succ_of_lt inside
    · rw [Array.getElem?_push, if_neg earlier, found]
  constructor
  case columns => rfl
  case linked => exact same.linked.addChild added
  case bounded => exact CallTree.size_le_of_addChild added
  case queue =>
    dsimp only [Subtraction.enqueue, LinearShift.enqueue]
    rw [isBase_ofNat small]
    split
    · exact same.queue
    · simp [same.queue]
  case arguments => rw [Array.size_push, newest, grown]
  case waiting =>
    dsimp only [LinearShift.enqueue]
    split
    · exact old
    · rw [Queue.toList_push, List.forall_mem_append]
      refine ⟨old, ?_⟩
      rw [List.forall_mem_singleton]
      refine ⟨grown ▸ Nat.lt_succ_self _, small, ?_⟩
      rw [← newest, Array.getElem?_push_size]

theorem pushCall_ofTree (same : Matches words { tree, queue })
    (small : caller.argument ≤ Number.wholeLimit) {call : Call}
    (found : tree.calls[caller.slot]? = some call) {shift : UInt32} {index : Nat}
    (added : tree.addChild caller.slot (call.id ++ "." ++ toString index)
      (Float.ofNat (caller.argument - shift.toNat))
      (r.isBase (caller.argument - shift.toNat)) = .ok result) :
    pushCall r (.ofNat caller.slot) (.ofNat caller.argument) words (shift, index) =
      .ok {
        columns := ofTree result
        queue := enqueue r words.queue (.ofNat tree.size)
          (.ofNat (caller.argument - shift.toNat))
        arguments := words.arguments.push (.ofNat (caller.argument - shift.toNat)) } := by
  obtain ⟨raw, subtracted, positive⟩ := subSigned_ofNat small shift
  have smaller : caller.argument - shift.toNat ≤ Number.wholeLimit :=
    Nat.le_trans (Nat.sub_le _ _) small
  have id : (ofTree tree).fetch (ofTree tree).ids (.ofNat caller.slot) = .ok call.id :=
    fetch_ofTree same.bounded found
  have value : Float.ofInt (Int64.ofNat (caller.argument - shift.toNat)).toInt =
      Float.ofNat (caller.argument - shift.toNat) := by
    rw [toInt_ofNat smaller]
    rfl
  simp only [pushCall, subtracted, ok_bind, same.columns, id, positive, isBase_ofNat smaller,
    value, pushChild_ofTree same.linked added, pure_eq_ok]

/-- The calls of a call are added to the columns as they are to the tree. -/
theorem foldlM_pushCall_ofTree (same : Matches words { tree, queue })
    (small : caller.argument ≤ Number.wholeLimit) {call : Call}
    (found : tree.calls[caller.slot]? = some call) {shifts : List UInt32} {index : Nat}
    {rest : Queue Waiting}
    (added : r.addCalls caller call.id index shifts tree queue = .ok (result, rest)) :
    ∃ next, (shifts.zipIdx index).foldlM
        (pushCall r (.ofNat caller.slot) (.ofNat caller.argument)) words = .ok next ∧
      Matches next { tree := result, queue := rest } := by
  induction shifts generalizing index tree queue words call with
  | nil =>
      cases added
      exact ⟨words, rfl, same⟩
  | cons shift shifts inductionHypothesis =>
      unfold LinearShift.addCalls at added
      dsimp only at added
      split at added
      · cases added
      · rename_i extended grown
        have smaller : caller.argument - shift.toNat ≤ Number.wholeLimit :=
          Nat.le_trans (Nat.sub_le _ _) small
        obtain ⟨caller', callerFound, calls⟩ := CallTree.getElem?_of_addChild grown
        obtain rfl : call = caller' := Option.some.inj (found.symm.trans callerFound)
        have old := Nat.ne_of_lt (CallTree.lt_size_iff.mpr ⟨call, found⟩)
        have kept : extended.calls[caller.slot]? =
            some { call with children := call.children.push tree.size } := by
          rw [calls, if_neg old, if_pos rfl]
        obtain ⟨next, run, sameNext⟩ := inductionHypothesis (same.enqueue smaller grown) kept added
        refine ⟨next, ?_, sameNext⟩
        rw [List.zipIdx_cons, List.foldlM_cons, pushCall_ofTree same small found grown, ok_bind,
          run]

/-! ### Steps -/

/-- Two steps come to the same. -/
inductive Agrees : Progress → LinearShift.Progress → Prop where
  | finished (expansion : Expansion) :
      Agrees (.finished (ofTree expansion.tree) expansion.stop) (.finished expansion)
  | continued {words : Frontier} {frontier : LinearShift.Frontier} (same : Matches words frontier) :
      Agrees (.continued words) (.continued frontier)

/-- A queue of slots gives up the slot of the call that a queue of calls gives up. -/
theorem Matches.pop {frontier : LinearShift.Frontier} {rest : Queue Waiting}
    (same : Matches words frontier) (popped : frontier.queue.pop? = some (caller, rest)) :
    ∃ slots, words.queue.pop? = some (.ofNat caller.slot, slots) ∧
      Matches { words with queue := slots } { frontier with queue := rest } := by
  have items := Queue.toList_of_pop? popped
  have slots := same.queue
  rw [items, List.map_cons] at slots
  cases poppedSlot : words.queue.pop? with
  | none =>
      rw [(Queue.pop?_eq_none_iff words.queue).mp poppedSlot] at slots
      cases slots
  | some popped =>
      obtain ⟨slot, others⟩ := popped
      rw [Queue.toList_of_pop? poppedSlot] at slots
      obtain ⟨rfl, sameOthers⟩ := List.cons.inj slots
      refine ⟨others, rfl, { same with queue := sameOthers, waiting := ?_ }⟩
      intro waiting member
      exact same.waiting waiting (items ▸ List.mem_cons_of_mem caller member)

/-- Whether the calls of a call fit is decided alike. -/
theorem addLong_lengthWord {limit : Nat} (bounded : tree.size ≤ CallTree.capacity)
    (limited : limit ≤ CallTree.capacity) (shifts : List UInt32) :
    ∃ total, addLong (ofTree tree).len.toUInt64 (lengthWord shifts) = .ok total ∧
      (.ofNat limit < total ↔ limit < tree.size + shifts.length) := by
  have capacity : CallTree.capacity < Int64.maxValue.toInt.toNat := by decide
  have longest : Int64.maxValue.toInt.toNat + Int64.maxValue.toInt.toNat < UInt64.size := by decide
  have len : (ofTree tree).len.toUInt64.toNat = tree.size := by
    rw [UInt32.toNat_toUInt64, toNat_len bounded]
  have length := toNat_lengthWord shifts
  have fits : (ofTree tree).len.toUInt64.toNat + (lengthWord shifts).toNat < UInt64.size := by omega
  refine ⟨_, if_pos fits, ?_⟩
  rw [UInt64.lt_iff_toNat_lt, UInt64.toNat_add, Nat.mod_eq_of_lt fits, len, length,
    toNat_ofNat_long (by omega)]
  omega

theorem step_ofTree {depth : UInt32} {limit : Nat} {frontier : LinearShift.Frontier}
    {progress : LinearShift.Progress} (same : Matches words frontier)
    (limited : limit ≤ CallTree.capacity)
    (stepped : r.step depth.toNat limit frontier = .ok progress) :
    ∃ next, step r depth (.ofNat limit) words = .ok next ∧ Agrees next progress := by
  obtain ⟨tree, queue⟩ := frontier
  unfold LinearShift.step at stepped
  dsimp only at stepped
  split at stepped
  · rename_i empty
    cases stepped
    have none : words.queue.pop? = none := by
      rw [Queue.pop?_eq_none_iff, same.queue, (Queue.pop?_eq_none_iff queue).mp empty]
      rfl
    rw [step, none, same.columns]
    exact ⟨_, rfl, .finished { tree, stop := Option.none }⟩
  · rename_i caller rest popped
    obtain ⟨slots, poppedSlot, sameRest⟩ := same.pop popped
    obtain ⟨inside, small, argument⟩ := same.waiting caller
      (Queue.toList_of_pop? popped ▸ List.mem_cons_self)
    obtain ⟨call, found⟩ := CallTree.lt_size_iff.mp inside
    have level : (ofTree tree).fetch (ofTree tree).level (.ofNat caller.slot) =
        .ok (.ofNat call.level) := fetch_ofTree same.bounded found
    rw [CallTree.call, found] at stepped
    dsimp only at stepped
    have shallow : call.level < UInt32.size :=
      Nat.lt_trans (level_lt_capacity same.linked same.bounded
        (Array.mem_def.mp (Array.mem_of_getElem? found))) (by decide)
    have deep : depth ≤ .ofNat call.level ↔ depth.toNat ≤ call.level := by
      rw [UInt32.le_iff_toNat_le, toNat_ofNat shallow]
    obtain ⟨total, added, crowded⟩ := addLong_lengthWord same.bounded limited r.shifts
    rw [step, poppedSlot]
    simp only [same.columns, level, ok_bind, deep, added, crowded]
    split at stepped
    · cases stepped
      rw [if_pos ‹_›]
      exact ⟨_, rfl, .continued (same.columns ▸ sameRest)⟩
    · rw [if_neg ‹_›]
      split at stepped
      · cases stepped
        have len := toNat_len same.bounded
        have count : (UInt32.ofNat tree.levelCount).toNat = tree.levelCount :=
          toNat_slot same.bounded same.linked.levelCount_le
        rw [if_pos ‹_›, levelCount_ofTree same.linked same.bounded, ok_bind, len, count]
        exact ⟨_, rfl, .finished (.stopped tree (tree.levelCount - 1))⟩
      · rw [if_neg ‹_›, toNat_slot same.bounded (Nat.le_of_lt inside), read_eq_ok argument, ok_bind]
        split at stepped
        · cases stepped
        · rename_i grown waiting addedCalls
          cases stepped
          obtain ⟨next, pushed, sameNext⟩ :=
            foldlM_pushCall_ofTree (same.columns ▸ sameRest) small found addedCalls
          exact ⟨_, congrArg (· >>= _) pushed, .continued sameNext⟩

/-- The columns of a run are those of the tree. -/
theorem run_ofTree {depth : UInt32} {limit : Nat} {frontier : LinearShift.Frontier}
    {expansion : Expansion} (same : Matches words frontier) (limited : limit ≤ CallTree.capacity)
    (ran : r.addWaiting depth.toNat limit frontier = .ok expansion) :
    run r depth (.ofNat limit) words = .ok (ofTree expansion.tree, expansion.stop) := by
  fun_induction LinearShift.addWaiting r depth.toNat limit frontier generalizing words with
  | case1 frontier fault stepped => cases ran
  | case2 frontier finished stepped =>
      cases ran
      obtain ⟨next, steppedWords, agrees⟩ := step_ofTree same limited stepped
      cases agrees
      rw [run, steppedWords]
  | case3 frontier next stepped inductionHypothesis =>
      obtain ⟨nextWords, steppedWords, agrees⟩ := step_ofTree same limited stepped
      cases agrees with
      | continued sameNext =>
          rw [run, steppedWords]
          exact inductionHypothesis sameNext ran

/-- The first call, which waits or does not wait alike. -/
theorem matches_start {argument : Nat} {id : String} {value : Float} {isBase : Bool}
    (small : argument ≤ Number.wholeLimit) {empty : CallTree}
    (added : empty.addRoot id value isBase = .ok tree) :
    Matches
      { columns := ofTree tree, queue := enqueue r {} 0 (.ofNat argument)
        arguments := #[.ofNat argument] }
      { tree, queue := r.enqueue {} { slot := 0, argument } } := by
  have single : tree.size = 1 := by
    obtain ⟨-, calls⟩ := CallTree.exists_of_addRoot added
    rw [CallTree.size, calls]
    rfl
  constructor
  case columns => rfl
  case linked => exact .addRoot added
  case bounded => exact CallTree.size_le_of_addRoot added
  case queue =>
    dsimp only [enqueue, LinearShift.enqueue]
    rw [isBase_ofNat small]
    split <;> rfl
  case arguments => rw [single]; rfl
  case waiting =>
    dsimp only [LinearShift.enqueue]
    split
    · simp
    · simp [single, small]

theorem calls_ofTree (bounded : tree.size ≤ CallTree.capacity) :
    (tree.levels.map Tally.ofCount).map (fun tally => tally.calls.toUInt64) =
      (tree.levels.map LevelCount.calls).map .ofNat := by
  rw [Array.map_map, Array.map_map]
  apply Array.map_congr_left
  intro count member
  rw [← Array.mem_toList_iff, CallTree.toList_levels, List.mem_map] at member
  obtain ⟨level, -, rfl⟩ := member
  have few := Nat.le_trans (tree.callsOn_le level) bounded
  exact UInt32.toUInt64_ofNat' (Nat.lt_of_le_of_lt few (by decide))

/-- The columns of a recurrence are those of its tree. -/
theorem expand_ofTree {initial : Float} {depth : UInt32} {nodeLimit : UInt64}
    {expansion : Expansion}
    (accepted : checkInitialSize initial = .ok ())
    (ran : r.expand initial depth.toNat nodeLimit = .ok expansion) :
    expand r initial depth nodeLimit = .ok (ofTree expansion.tree, expansion.stop) := by
  have first : initial.toModel.toInt64.toInt = Number.wholePart initial :=
    (Number.wholePart_eq_toInt64 accepted).symm
  have small : Number.wholePart initial ≤ Number.wholeLimit := by
    have largest := initial.toModel.toInt64.toInt_le
    rw [first] at largest
    exact Int.ofNat_le.mp largest
  have word : initial.toModel.toInt64 = .ofNat (Number.wholePart initial) := by
    rw [← Int64.toInt_inj, first, toInt_ofNat small]
  have linked := Recurrence.linked_of_expand (r := .linearShift r) ran
  have bounded := Recurrence.size_le_of_expand (r := .linearShift r) ran
  unfold LinearShift.expand LinearShift.start at ran
  dsimp only at ran
  cases added : CallTree.addRoot { family := .linearShift } "n"
      (Float.ofNat (Number.wholePart initial)) (r.isBase (Number.wholePart initial)) with
  | error fault =>
      rw [added] at ran
      cases ran
  | ok root =>
      rw [added] at ran
      dsimp only at ran
      split at ran
      · cases ran
      · rename_i tree stop waited
        cases ran
        have rooted := pushRoot_ofTree added
        have pushed : Columns.pushRoot { family := .linearShift } "n"
            (Float.ofInt (Int64.ofNat (Number.wholePart initial)).toInt)
            (isBase r (.ofNat (Number.wholePart initial))) = .ok (ofTree root, 0) := by
          rw [toInt_ofNat small, isBase_ofNat small]
          rw [ofTree_empty, Array.map_empty] at rooted
          exact rooted
        have limited : callLimit nodeLimit ≤ CallTree.capacity := Nat.min_le_right _ _
        have levels : (ofTree tree).levels = .ok (tree.levels.map .ofCount) :=
          levels_ofTree (linked.of_calls_eq rfl) bounded
        have widths : (tree.levels.map Tally.ofCount).map (fun tally => tally.calls.toUInt64) =
            (LinearShift.giveWidths tree).rowWidths.map .ofNat := calls_ofTree bounded
        rw [expand, word, pushed, ok_bind]
        simp only [run_ofTree (matches_start small added) limited waited, ok_bind, levels, widths]
        rfl

end Subtraction

end Unfolding.Words
