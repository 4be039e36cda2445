import Unfolding.Proofs.Generation

/-!
Bounds only cut off the end of a tree.

Under a smaller depth or a smaller node limit an unfolding takes the same steps
and stops earlier, so its tree begins the tree under larger bounds.  A node limit
stops the unfolding as a whole.  A depth passes over single calls, but calls wait
in the order of their levels, so from the first of these on all are passed over.
-/

namespace Unfolding

/-- Two calls are the same apart from the calls that they make and from what is
known about repetitions. -/
structure Call.Agrees (call other : Call) : Prop where
  id : call.id = other.id
  argument : call.argument = other.argument
  level : call.level = other.level
  isBase : call.isBase = other.isBase
  parent : call.parent = other.parent

theorem Call.Agrees.refl (call : Call) : call.Agrees call := ⟨rfl, rfl, rfl, rfl, rfl⟩

theorem Call.Agrees.trans {call other third : Call} (agrees : call.Agrees other)
    (others : other.Agrees third) : call.Agrees third where
  id := agrees.id.trans others.id
  argument := agrees.argument.trans others.argument
  level := agrees.level.trans others.level
  isBase := agrees.isBase.trans others.isBase
  parent := agrees.parent.trans others.parent

namespace CallTree

/-- The slots of a tree hold the first calls of a larger one. -/
structure Begins (tree larger : CallTree) : Prop where
  size : tree.size ≤ larger.size
  agrees : ∀ {slot : Nat} {call other : Call}, tree.calls[slot]? = some call →
    larger.calls[slot]? = some other → call.Agrees other

namespace Begins

variable {tree larger result : CallTree}

theorem of_calls_eq (same : tree.calls = larger.calls) : tree.Begins larger where
  size := by
    rw [CallTree.size, CallTree.size, same]
  agrees := by
    intro slot call other found otherFound
    rw [same, otherFound] at found
    cases found
    exact .refl call

theorem trans (begins : tree.Begins larger) (further : larger.Begins result) :
    tree.Begins result where
  size := Nat.le_trans begins.size further.size
  agrees := by
    intro slot call third found thirdFound
    have inside : slot < larger.size :=
      Nat.lt_of_lt_of_le (lt_size_iff.mpr ⟨call, found⟩) begins.size
    obtain ⟨other, otherFound⟩ := lt_size_iff.mp inside
    exact (begins.agrees found otherFound).trans (further.agrees otherFound thirdFound)

/-- The calls that were there before an addition stay as they were. -/
theorem addChild {parent : Nat} {id : String} {argument : Float} {isBase : Bool}
    (added : tree.addChild parent id argument isBase = .ok result) : tree.Begins result where
  size := by
    rw [size_addChild added]
    exact Nat.le_succ tree.size
  agrees := by
    intro slot call other found otherFound
    obtain ⟨caller, callerFound, calls⟩ := getElem?_of_addChild added
    have old : slot ≠ tree.size := Nat.ne_of_lt (lt_size_iff.mpr ⟨call, found⟩)
    rw [calls, if_neg old] at otherFound
    by_cases here : slot = parent
    · rw [here, callerFound] at found
      rw [if_pos here] at otherFound
      cases found
      cases otherFound
      exact ⟨rfl, rfl, rfl, rfl, rfl⟩
    · rw [if_neg here, found] at otherFound
      cases otherFound
      exact .refl call

theorem markRepeats (tree : CallTree) :
    tree.Begins tree.markRepeats.1 ∧ tree.markRepeats.1.Begins tree := by
  have noted {slot : Nat} {call other : Call} (found : tree.calls[slot]? = some call)
      (otherFound : tree.markRepeats.1.calls[slot]? = some other) :
      call.Agrees other ∧ other.Agrees call := by
    obtain ⟨repeats, same⟩ := exists_noteRepeats tree.argumentCounts call
    have marked : tree.markRepeats.1.calls[slot]? = some { call with repeats } := by
      rw [← same]
      simp [CallTree.markRepeats, found]
    rw [marked] at otherFound
    cases otherFound
    exact ⟨⟨rfl, rfl, rfl, rfl, rfl⟩, ⟨rfl, rfl, rfl, rfl, rfl⟩⟩
  have size : tree.markRepeats.1.size = tree.size := Array.size_map
  refine ⟨⟨Nat.le_of_eq size.symm, ?_⟩, ⟨Nat.le_of_eq size, ?_⟩⟩
  · intro slot call other found otherFound
    exact (noted found otherFound).1
  · intro slot call other found otherFound
    exact (noted otherFound found).2

/-- A tree keeps its beginning while calls are added to it. -/
theorem isKept (tree : CallTree) : IsKept tree.Begins where
  addRoot := by
    intro larger result id argument isBase begins added
    obtain ⟨empty, -⟩ := exists_of_addRoot added
    have noSlots : tree.size = 0 := by
      have bounded := begins.size
      rw [CallTree.size, CallTree.size, empty] at bounded
      exact Nat.le_zero.mp bounded
    refine ⟨noSlots ▸ Nat.zero_le _, ?_⟩
    intro slot call other found
    have inside := lt_size_iff.mpr ⟨call, found⟩
    rw [noSlots] at inside
    exact absurd inside (Nat.not_lt_zero slot)
  addChild begins added := begins.trans (.addChild added)
  of_calls_eq begins same _ := begins.trans (.of_calls_eq same.symm)

end Begins

end CallTree

theorem callLimit_mono {nodeLimit more : UInt64} (fewer : nodeLimit ≤ more) :
    callLimit nodeLimit ≤ callLimit more := by
  have words := UInt64.le_iff_toNat_le.mp fewer
  unfold callLimit
  omega

/-! ### Divide-and-conquer rows -/

namespace DivideConquer

variable {r : DivideConquer} {expansion larger : Expansion}

theorem addRows_begins {limit more left further : Nat} {above : Row} {tree : CallTree}
    (fewer : limit ≤ more) (shallower : left ≤ further)
    (run : r.addRows limit left above tree = .ok expansion)
    (wider : r.addRows more further above tree = .ok larger) :
    expansion.tree.Begins larger.tree := by
  induction left generalizing above tree further with
  | zero =>
      cases run
      exact addRows_keeps (CallTree.Begins.isKept tree) (.of_calls_eq rfl) wider
  | succ left inductionHypothesis =>
      have goesOn : tree.Begins larger.tree :=
        addRows_keeps (CallTree.Begins.isKept tree) (.of_calls_eq rfl) wider
      obtain ⟨further, rfl⟩ := Nat.exists_eq_add_of_le' (Nat.zero_lt_of_lt shallower)
      rw [addRows] at run wider
      split at run
      · cases run
        exact goesOn
      · rename_i notBase
        rw [if_neg notBase] at wider
        dsimp only at run wider
        split at run
        · rename_i fits
          rw [if_pos (by omega)] at wider
          split at run
          · cases run
          · rename_i extended added
            rw [added] at wider
            exact inductionHypothesis (Nat.le_of_succ_le_succ shallower) run wider
        · cases run
          have stopped : (Expansion.stopped tree above.level).tree.Begins tree := .of_calls_eq rfl
          exact stopped.trans goesOn

theorem expand_begins {initial : Float} {depth deeper : Nat} {nodeLimit more : UInt64}
    (shallower : depth ≤ deeper) (fewer : nodeLimit ≤ more)
    (run : r.expand initial depth nodeLimit = .ok expansion)
    (wider : r.expand initial deeper more = .ok larger) : expansion.tree.Begins larger.tree := by
  unfold expand at run wider
  dsimp only at run wider
  split at run
  · cases run
  · rename_i rooted added
    rw [added] at wider
    exact addRows_begins (callLimit_mono fewer) shallower run wider

end DivideConquer

/-! ### Linear-shift queues -/

namespace LinearShift

variable {r : LinearShift} {depth deeper limit more : Nat} {frontier next : Frontier}
variable {expansion larger : Expansion}

theorem addWaiting_of_finished (stepped : r.step depth limit frontier = .ok (.finished expansion)) :
    r.addWaiting depth limit frontier = .ok expansion := by
  rw [addWaiting]
  split
  all_goals
    rename_i other
    cases stepped.symm.trans other
  rfl

theorem addWaiting_of_continued (stepped : r.step depth limit frontier = .ok (.continued next)) :
    r.addWaiting depth limit frontier = r.addWaiting depth limit next := by
  rw [addWaiting]
  split
  all_goals
    rename_i other
    cases stepped.symm.trans other
  rfl

theorem calls_of_finished (stepped : r.step depth limit frontier = .ok (.finished expansion)) :
    expansion.tree.calls = frontier.tree.calls := by
  rcases eq_of_step_finished stepped with rfl | rfl <;> rfl

namespace Sweeps

variable {first : Nat} {listed done waiting rest : List CallPath} {path : CallPath}

/-- Calls wait in the order of their levels. -/
theorem length_le_of_waiting
    (sweeps : r.Sweeps first depth limit frontier listed done (path :: rest))
    {other : CallPath} (waits : other ∈ path :: rest) : path.length ≤ other.length := by
  have ordered : (path :: rest).Pairwise CallPath.Precedes := by
    have inside : (path :: rest).Sublist listed :=
      (List.sublist_append_right done (path :: rest)).trans
        (sweeps.sweep.open_eq ▸ List.filter_sublist)
    exact sweeps.sweep.ordered.sublist inside
  rcases List.mem_cons.mp waits with rfl | behind
  · exact Nat.le_refl _
  · rcases List.shortlex_def.mp (List.rel_of_pairwise_cons ordered behind) with
      shorter | ⟨level, -⟩
    · exact Nat.le_of_lt shorter
    · exact Nat.le_of_eq level

/-- Once all waiting calls are at the full depth, nothing more is added. -/
theorem addWaiting_of_deep (sweeps : r.Sweeps first depth limit frontier listed done waiting)
    (deep : ∀ path ∈ waiting, depth ≤ path.length) :
    r.addWaiting depth limit frontier = .ok { tree := frontier.tree, stop := none } := by
  induction waiting generalizing frontier done with
  | nil => exact addWaiting_of_finished sweeps.step_nil
  | cons path rest inductionHypothesis =>
      rw [List.forall_mem_cons] at deep
      obtain ⟨caller, others, -, othersHold, stepped⟩ := sweeps.step_cons
      rw [if_pos deep.1] at stepped
      rw [addWaiting_of_continued stepped]
      have skipped : r.Sweeps first depth limit { tree := frontier.tree, queue := others } listed
          (done ++ [path]) rest :=
        ⟨sweeps.sweep.skip deep.1, sweeps.follows, othersHold, sweeps.whole, sweeps.within⟩
      exact inductionHypothesis skipped deep.2

/-- A call above the full depth is expanded under wider bounds as well. -/
theorem step_widen (sweeps : r.Sweeps first depth limit frontier listed done (path :: rest))
    (shallow : path.length < depth) (shallower : depth ≤ deeper) (fewer : limit ≤ more)
    (stepped : r.step depth limit frontier = .ok (.continued next)) :
    r.step deeper more frontier = .ok (.continued next) := by
  obtain ⟨caller, others, popped, stands, -⟩ := sweeps.holds.exists_pop?
  obtain ⟨call, found, described⟩ := sweeps.follows.call stands.slot
  have level : call.level = path.length := described.level
  have read : frontier.tree.call caller.slot = .ok call := by
    rw [CallTree.call, found]
  unfold LinearShift.step at stepped ⊢
  simp only [popped, read, level] at stepped ⊢
  rw [if_neg (by omega)] at stepped ⊢
  split at stepped
  · cases stepped
  · rw [if_neg (by omega)]
    exact stepped

theorem addWaiting_begins (sweeps : r.Sweeps first depth limit frontier listed done waiting)
    (representable : limit ≤ CallTree.capacity) (shallower : depth ≤ deeper) (fewer : limit ≤ more)
    (run : r.addWaiting depth limit frontier = .ok expansion)
    (wider : r.addWaiting deeper more frontier = .ok larger) :
    expansion.tree.Begins larger.tree := by
  have goesOn : frontier.tree.Begins larger.tree :=
    addWaiting_keeps (CallTree.Begins.isKept frontier.tree) (.of_calls_eq rfl) wider
  fun_induction LinearShift.addWaiting r depth limit frontier generalizing listed done waiting with
  | case1 frontier fault stepped => cases run
  | case2 frontier finished stepped =>
      cases run
      exact (CallTree.Begins.of_calls_eq (calls_of_finished stepped)).trans goesOn
  | case3 frontier next stepped inductionHypothesis =>
      cases waiting with
      | nil =>
          cases stepped.symm.trans sweeps.step_nil
      | cons path rest =>
          by_cases deep : depth ≤ path.length
          · -- everything behind the first call is as deep, so the narrower run ends here
            have ended := sweeps.addWaiting_of_deep fun other waits =>
              Nat.le_trans deep (sweeps.length_le_of_waiting waits)
            rw [addWaiting_of_continued stepped, run] at ended
            cases ended
            exact goesOn
          · have shallow := Nat.lt_of_not_le deep
            have widened := sweeps.step_widen shallow shallower fewer stepped
            rw [addWaiting_of_continued widened] at wider
            rcases sweeps.step representable with
              ⟨finished, other, -⟩ | ⟨same, _, _, _, other, nextSweeps⟩
            all_goals cases stepped.symm.trans other
            exact inductionHypothesis nextSweeps run wider
              (addWaiting_keeps (CallTree.Begins.isKept next.tree) (.of_calls_eq rfl) wider)

end Sweeps

theorem expand_begins {initial : Float} {nodeLimit moreNodes : UInt64}
    (shallower : depth ≤ deeper) (fewer : nodeLimit ≤ moreNodes)
    (run : r.expand initial depth nodeLimit = .ok expansion)
    (wider : r.expand initial deeper moreNodes = .ok larger) :
    expansion.tree.Begins larger.tree := by
  obtain ⟨frontier, started, sweeps⟩ :=
    r.start_sweeps (Number.wholePart initial) depth (callLimit nodeLimit)
  unfold expand at run wider
  rw [started] at run wider
  dsimp only at run wider
  split at run
  · cases run
  · rename_i tree stop ran
    split at wider
    · cases wider
    · rename_i largerTree largerStop largerRan
      cases run
      cases wider
      have begins := sweeps.addWaiting_begins (Nat.min_le_right _ _) shallower
        (callLimit_mono fewer) ran largerRan
      have given (tree : CallTree) :
          (giveWidths tree).Begins tree ∧ tree.Begins (giveWidths tree) :=
        ⟨.of_calls_eq rfl, .of_calls_eq rfl⟩
      exact ((given tree).1.trans begins).trans (given largerTree).2

end LinearShift

/-! ### Requests -/

/-- A view asks for no more levels than another one.  Without a depth it asks for
all of them. -/
structure View.AsksWithin (view wider : View) : Prop where
  initial : view.initial = wider.initial
  depth : ∀ deeper, wider.maxDepth = some deeper →
    ∃ depth, view.maxDepth = some depth ∧ depth ≤ deeper

namespace Recurrence

variable {r : Recurrence} {view wider : View} {nodeLimit more : UInt64}

theorem expand_begins {initial : Float} {depth deeper : Nat} {expansion larger : Expansion}
    (shallower : depth ≤ deeper) (fewer : nodeLimit ≤ more)
    (run : r.expand initial depth nodeLimit = .ok expansion)
    (widerRun : r.expand initial deeper more = .ok larger) :
    expansion.tree.Begins larger.tree := by
  cases r with
  | divideConquer r => exact r.expand_begins shallower fewer run widerRun
  | linearShift r => exact r.expand_begins shallower fewer run widerRun

end Recurrence

namespace Unfolded

variable {budget : DepthBudget} {growth : Option Growth} {expansion : Expansion}

/-- Marks change no call. -/
theorem begins_ofExpansion :
    (ofExpansion budget growth expansion).tree.Begins expansion.tree ∧
      expansion.tree.Begins (ofExpansion budget growth expansion).tree := by
  apply ofExpansion_keeps fun tree => tree.Begins expansion.tree ∧ expansion.tree.Begins tree
  · rintro tree ⟨within, behind⟩
    have same : CallTree.Begins { tree with isTruncated := true } tree := .of_calls_eq rfl
    exact ⟨same.trans within, behind.trans (.of_calls_eq rfl)⟩
  · rintro tree ⟨within, behind⟩
    obtain ⟨marked, unmarked⟩ := CallTree.Begins.markRepeats tree
    exact ⟨unmarked.trans within, behind.trans marked⟩
  · exact ⟨.of_calls_eq rfl, .of_calls_eq rfl⟩

end Unfolded

namespace Recurrence

variable {r : Recurrence} {view wider : View} {nodeLimit more : UInt64}

/-- Tighter bounds leave the beginning of the tree. -/
theorem unfold_begins_of_tighter (valid : r.check = .ok ())
    (accepted : checkInitialSize wider.initial = .ok ()) (asks : view.AsksWithin wider)
    (fewer : nodeLimit ≤ more) :
    ∃ unfolded larger, r.unfold view nodeLimit = .ok unfolded ∧ r.unfold wider more = .ok larger ∧
      unfolded.tree.Begins larger.tree := by
  obtain ⟨natural, atHorizon, -, depths⟩ := exists_natural valid accepted
  have settled : r.depth view.initial view.maxDepth =
      .ok (.within natural atHorizon view.maxDepth) := by
    rw [asks.initial]
    exact depths view.maxDepth
  obtain ⟨expansion, run, unfolded⟩ := unfold_eq_ok view nodeLimit settled
  obtain ⟨larger, largerRun, largerUnfolded⟩ := unfold_eq_ok wider more (depths wider.maxDepth)
  refine ⟨_, _, unfolded, largerUnfolded, ?_⟩
  rw [asks.initial] at run
  have begins := expand_begins (DepthBudget.effective_within_mono asks.depth) fewer run largerRun
  exact (Unfolded.begins_ofExpansion.1.trans begins).trans Unfolded.begins_ofExpansion.2

/-- A Fibonacci tree under two depths and two node limits, both of which cut it. -/
theorem unfold_begins_of_tighter_fibonacci :
    let fibonacci := linearShift (.ofShifts [1, 2] 0)
    fibonacci.check = .ok () ∧ checkInitialSize 9.5 = .ok () ∧
      ∃ unfolded larger, fibonacci.unfold { initial := 9.5, maxDepth := some 3 } 6 = .ok unfolded ∧
        fibonacci.unfold { initial := 9.5, maxDepth := some 4 } 24 = .ok larger ∧
        unfolded.tree.Begins larger.tree := by
  have asks : View.AsksWithin { initial := 9.5, maxDepth := some 3 }
      { initial := 9.5, maxDepth := some 4 } := by
    refine ⟨rfl, ?_⟩
    rintro deeper ⟨⟩
    exact ⟨3, rfl, by decide⟩
  exact ⟨rfl, rfl, unfold_begins_of_tighter rfl rfl asks (by decide)⟩

end Recurrence

end Unfolding
