import Unfolding.Proofs.Event.Narrative
import Unfolding.Proofs.Refusal
import Unfolding.Proofs.Words.Division
import Unfolding.Proofs.Words.Drawing
import Unfolding.Proofs.Words.Subtraction

/-!
From a recurrence to its drawing by words.

Nothing that could go wrong on words does so: the computation ends with the drawing,
or with the objection to the request.
-/

namespace Unfolding.Words

/-! ### Depth -/

structure Budget where
  natural : UInt32
  effective : UInt32
  atHorizon : Bool

namespace Budget

/-- The budget of a natural depth under a request. -/
def within (natural : UInt32) (atHorizon : Bool) (requested : Option UInt32) : Budget where
  natural
  effective := min (requested.getD natural) natural
  atHorizon

/-- It is the horizon, and not a request, that cuts the tree. -/
def isHorizonBound (budget : Budget) : Bool :=
  budget.atHorizon && !decide (budget.effective < budget.natural)

def ofBudget (budget : DepthBudget) : Budget where
  natural := .ofNat budget.natural
  effective := .ofNat budget.effective
  atHorizon := budget.atHorizon

end Budget

/-- Divide until the size is no longer above `base`, at most `left` times. -/
def divisions (reduction base : Float) :
    (left : Nat) → (size : Float) → (depth : UInt32) → Checked (UInt32 × Bool)
  | 0, size, depth => .ok (depth, decide (size > base))
  | left + 1, size, depth =>
      if size > base then do
        divisions reduction base left (size / reduction) (← add depth 1)
      else .ok (depth, false)

/-- A signed long word as a short one; the largest one stands for all that are none. -/
def narrowSigned (word : Int64) : UInt32 :=
  if 0 ≤ word.toInt ∧ word.toInt < UInt32.size then .ofNat word.toInt.toNat
  else .ofNat (UInt32.size - 1)

/-- The natural depth of a recurrence, and whether the calls would go on. -/
def naturalDepth (r : Recurrence) (initial : Float) : Checked (UInt32 × Bool) :=
  match r with
  | .divideConquer r => divisions r.reduction r.baseSize depthHorizon initial 0
  | .linearShift _ =>
      let full := narrowSigned initial.toModel.toInt64
      let natural := min full (.ofNat depthHorizon)
      .ok (natural, decide (natural < full))

def depth (r : Recurrence) (initial : Float) (requested : Option UInt32) : Checked Budget := do
  r.check.mapError .fault
  (checkInitialSize initial).mapError .fault
  let (natural, atHorizon) ← naturalDepth r initial
  return .within natural atHorizon requested

/-! ### Drawings -/

def expand (r : Recurrence) (initial : Float) (depth : UInt32) (nodeLimit : UInt64) :
    Checked (Columns × Option LimitStop) :=
  match r with
  | .divideConquer r => Division.expand r initial depth nodeLimit
  | .linearShift r => Subtraction.expand r initial depth nodeLimit

/-- The numbers under which levels are reported; they run one ahead. -/
def numberLevels (tallies : Array Tally) : Checked UInt32 :=
  (List.range (tallies.size + 1)).foldlM (fun level _ => add level 1) 0

/-- Repeated arguments are noted where growth is told. -/
def Columns.noteRepeats (columns : Columns) : Option Growth → Checked (Columns × Option Marks)
  | none => .ok (columns, none)
  | some _ => do
      let (columns, marks) ← columns.markRepeats
      return (columns, some marks)

/-- What is known of an unfolded recurrence before it is drawn. -/
structure Prepared where
  columns : Columns
  marks : Option Marks
  budget : Budget

/-- Settle the depth of a recurrence and unfold it. -/
def unfold (r : Recurrence) (view : View) (nodeLimit : UInt64) : Checked Prepared := do
  let budget ← depth r view.initial view.maxDepth
  let (columns, _) ← expand r view.initial budget.effective nodeLimit
  let columns :=
    if budget.isHorizonBound then { columns with isTruncated := true } else columns
  let tallies ← columns.levels
  let _ ← numberLevels tallies
  let (columns, marks) ← columns.noteRepeats r.growth?
  return { columns, marks, budget }

/-- The drawing of a recurrence. -/
def generate (r : Recurrence) (view : View) (style : Style) : Checked Drawing := do
  let { columns, marks, budget } ← unfold r view style.nodeLimit
  columns.draw view.orientation style marks r.growth? budget.effective

/-! ### Depths are words -/

theorem divisions_ofNat {reduction base size : Float} {left depth : Nat}
    (fits : depth + left < UInt32.size) :
    divisions reduction base left size (.ofNat depth) =
      .ok (.ofNat (Unfolding.divisions reduction base left size depth).1,
        (Unfolding.divisions reduction base left size depth).2) := by
  induction left generalizing size depth with
  | zero => rfl
  | succ left inductionHypothesis =>
      rw [divisions, Unfolding.divisions]
      split
      · rw [add_one (by omega), ok_bind, inductionHypothesis (by omega)]
      · rfl

theorem min_ofNat {left right : Nat} (leftFits : left < UInt32.size)
    (rightFits : right < UInt32.size) :
    min (UInt32.ofNat left) (.ofNat right) = .ofNat (min left right) := by
  change (if UInt32.ofNat left ≤ .ofNat right then _ else _) = UInt32.ofNat _
  simp only [UInt32.le_iff_toNat_le, toNat_ofNat leftFits, toNat_ofNat rightFits, Nat.min_def]
  split <;> rfl

theorem within_ofNat {natural : Nat} (fits : natural < UInt32.size) (atHorizon : Bool)
    (requested : Option UInt32) :
    Budget.within (.ofNat natural) atHorizon requested =
      .ofBudget (.within natural atHorizon requested) := by
  have effective : min (requested.getD (.ofNat natural)) (.ofNat natural) =
      .ofNat (min (requested.elim natural UInt32.toNat) natural) := by
    cases requested with
    | none => exact min_ofNat fits fits
    | some depth =>
        rw [Option.getD_some, ← UInt32.ofNat_toNat (x := depth), min_ofNat depth.toNat_lt fits]
        simp
  rw [Budget.within, effective]
  rfl

theorem naturalDepth_linear {r : LinearShift} {initial : Float}
    (accepted : checkInitialSize initial = .ok ()) :
    naturalDepth (.linearShift r) initial =
      .ok (.ofNat (min (Number.wholePart initial) depthHorizon),
        decide (depthHorizon < Number.wholePart initial)) := by
  have word : initial.toModel.toInt64.toInt = Number.wholePart initial :=
    (Number.wholePart_eq_toInt64 accepted).symm
  have full : narrowSigned initial.toModel.toInt64 =
      .ofNat (min (Number.wholePart initial) (UInt32.size - 1)) := by
    rw [narrowSigned, word]
    split
    · congr 1
      omega
    · congr 1
      omega
  have horizon : depthHorizon < UInt32.size - 1 := by decide
  have least : min (min (Number.wholePart initial) (UInt32.size - 1)) depthHorizon =
      min (Number.wholePart initial) depthHorizon := by omega
  have deep : UInt32.ofNat (min (Number.wholePart initial) depthHorizon) <
      .ofNat (min (Number.wholePart initial) (UInt32.size - 1)) ↔
        depthHorizon < Number.wholePart initial := by
    rw [UInt32.lt_iff_toNat_lt, toNat_ofNat (by omega), toNat_ofNat (by omega)]
    omega
  rw [naturalDepth, full]
  simp only [min_ofNat
    (show min (Number.wholePart initial) (UInt32.size - 1) < UInt32.size by omega)
    (show depthHorizon < UInt32.size by decide), least, deep]

/-- The depth is settled alike. -/
theorem depth_eq (r : Recurrence) (initial : Float) (requested : Option UInt32) :
    depth r initial requested =
      ((r.depth initial requested).map Budget.ofBudget).mapError .fault := by
  cases r with
  | divideConquer r =>
      rw [depth, Recurrence.check, Recurrence.depth, DivideConquer.depth]
      cases r.check with
      | error fault => rfl
      | ok _ =>
          cases checkInitialSize initial with
          | error fault => rfl
          | ok _ =>
              have counted : naturalDepth (.divideConquer r) initial = _ :=
                divisions_ofNat (show 0 + depthHorizon < UInt32.size by decide)
              have fits := Nat.lt_of_le_of_lt (DivideConquer.divisions_le r.reduction r.baseSize
                depthHorizon initial 0) (show 0 + depthHorizon < UInt32.size by decide)
              simp only [Except.mapError, ok_bind, counted, within_ofNat fits]
              rfl
  | linearShift r =>
      rw [depth, Recurrence.check, Recurrence.depth, LinearShift.depth]
      cases r.check with
      | error fault => rfl
      | ok _ =>
          cases accepted : checkInitialSize initial with
          | error fault => rfl
          | ok _ =>
              have fits : min (Number.wholePart initial) depthHorizon < UInt32.size :=
                Nat.lt_of_le_of_lt (Nat.min_le_right _ _) (by decide)
              simp only [Except.mapError, ok_bind, naturalDepth_linear accepted, within_ofNat fits]
              rfl

/-! ### Drawings are found -/

theorem expand_ofTree {r : Recurrence} {initial : Float} {depth : UInt32} {nodeLimit : UInt64}
    {expansion : Expansion} (accepted : checkInitialSize initial = .ok ())
    (ran : r.expand initial depth.toNat nodeLimit = .ok expansion) :
    expand r initial depth nodeLimit = .ok (ofTree expansion.tree, expansion.stop) := by
  cases r with
  | divideConquer r => exact Division.expand_ofTree ran
  | linearShift r => exact Subtraction.expand_ofTree accepted ran

theorem numberLevels_eq_ok {tallies : Array Tally} (few : tallies.size + 1 < UInt32.size) :
    numberLevels tallies = .ok (.ofNat (tallies.size + 1)) := by
  apply foldlM_range_eq_ok UInt32.ofNat
  intro level inside
  exact add_one (by omega)

theorem repeats_markRepeats_le {tree : CallTree} (unmarked : tree.Unmarked) :
    ∀ call ∈ tree.markRepeats.1.calls, ∀ count ∈ call.repeats, count ≤ tree.markRepeats.1.size := by
  have sized : tree.markRepeats.1.size = tree.argumentKeys.length := by
    simp [CallTree.markRepeats, CallTree.argumentKeys, CallTree.size]
  intro call member count noted
  obtain ⟨slot, marked⟩ := Array.getElem?_of_mem member
  have inside : slot < tree.size := by
    have bound := (Array.getElem?_eq_some_iff.mp marked).1
    simpa [CallTree.markRepeats, CallTree.size] using bound
  obtain ⟨before, found⟩ := CallTree.lt_size_iff.mp inside
  rw [CallTree.getElem?_markRepeats unmarked found] at marked
  cases marked
  dsimp only at noted
  split at noted
  · cases noted
    rw [sized]
    exact List.count_le_length
  · cases noted

/-- The tree of a recurrence has a number of calls for each of its levels, and for each
argument that is repeated. -/
theorem counted_ofExpansion {r : Recurrence} {initial : Float} {depth : Nat} {nodeLimit : UInt64}
    {expansion : Expansion} (ran : r.expand initial depth nodeLimit = .ok expansion)
    (budget : DepthBudget) (growth : Option Growth) :
    Counted (Unfolded.ofExpansion budget growth expansion).tree where
  linked := Unfolded.linked_ofExpansion (Recurrence.linked_of_expand ran)
  bounded := by
    rw [Unfolded.size_ofExpansion]
    exact Recurrence.size_le_of_expand ran
  rows := Unfolded.rowsCounted_ofExpansion (Recurrence.rowsCounted_of_expand ran)
  repeats := by
    have unmarked : (Unfolded.markHorizon budget expansion.tree).Unmarked := by
      apply (Recurrence.unmarked_of_expand ran).of_calls_eq
      unfold Unfolded.markHorizon
      split <;> rfl
    cases growth with
    | none =>
        intro call member count noted
        cases (unmarked call member).symm.trans noted
    | some growth => exact repeats_markRepeats_le unmarked

theorem isHorizonBound_ofBudget {budget : DepthBudget} (fits : budget.natural < UInt32.size)
    (within : budget.effective ≤ budget.natural) :
    (Budget.ofBudget budget).isHorizonBound = budget.isHorizonBound := by
  have capped : UInt32.ofNat budget.effective < .ofNat budget.natural ↔
      budget.effective < budget.natural := by
    rw [UInt32.lt_iff_toNat_lt, toNat_ofNat fits, toNat_ofNat (by omega)]
  simp [Budget.isHorizonBound, Budget.ofBudget, DepthBudget.isHorizonBound, DepthBudget.isCapped,
    capped]

theorem noteRepeats_ofTree {budget : DepthBudget} {expansion : Expansion} (growth : Option Growth)
    (bounded : (Unfolded.markHorizon budget expansion.tree).size ≤ CallTree.capacity) :
    ∃ marks, (ofTree (Unfolded.markHorizon budget expansion.tree)).noteRepeats growth =
        .ok (ofTree (Unfolded.ofExpansion budget growth expansion).tree, marks) ∧
      marks.map (fun marks => marks.groups.toNat) =
        (Unfolded.ofExpansion budget growth expansion).repetition.map Repetition.groups := by
  cases growth with
  | none => exact ⟨none, rfl, rfl⟩
  | some growth =>
      refine ⟨_, by rw [Columns.noteRepeats, markRepeats_ofTree bounded]; rfl, ?_⟩
      exact congrArg some (toNat_slot bounded (CallTree.groups_markRepeats_le _))

theorem unfold_ofTree {r : Recurrence} {view : View} {nodeLimit : UInt64} {budget : DepthBudget}
    {expansion : Expansion} (settled : r.depth view.initial view.maxDepth = .ok budget)
    (ran : r.expand view.initial budget.effective nodeLimit = .ok expansion) :
    ∃ marks, unfold r view nodeLimit = .ok {
        columns := ofTree (Unfolded.ofExpansion budget r.growth? expansion).tree
        marks
        budget := .ofBudget budget } ∧
      marks.map (fun marks => marks.groups.toNat) =
        (Unfolded.ofExpansion budget r.growth? expansion).repetition.map
          Repetition.groups := by
  obtain ⟨-, accepted⟩ := Recurrence.accepted_of_depth settled
  obtain ⟨-, within, natural⟩ := Recurrence.within_of_depth settled
  have horizon : depthHorizon + 2 < UInt32.size := by decide
  have effective : (Budget.ofBudget budget).effective.toNat = budget.effective :=
    toNat_ofNat (by omega)
  have budgeted : depth r view.initial view.maxDepth = .ok (.ofBudget budget) := by
    rw [depth_eq, settled]
    rfl
  have expanded := expand_ofTree accepted (effective.symm ▸ ran)
  have marked : (if (Budget.ofBudget budget).isHorizonBound then
      { ofTree expansion.tree with isTruncated := true } else ofTree expansion.tree) =
        ofTree (Unfolded.markHorizon budget expansion.tree) := by
    rw [isHorizonBound_ofBudget (by omega) within, Unfolded.markHorizon]
    split <;> rfl
  have counted : Counted (Unfolded.markHorizon budget expansion.tree) :=
    counted_ofExpansion ran budget none
  have levels := levels_ofTree counted.linked counted.bounded
  have few : ((Unfolded.markHorizon budget expansion.tree).levels.map
      Tally.ofCount).size + 1 < UInt32.size := by
    have count : (Unfolded.ofExpansion budget none expansion).tree.levelCount =
        expansion.tree.levelCount := Unfolded.levelCount_ofExpansion
    change (Unfolded.markHorizon budget expansion.tree).levelCount = _ at count
    have deepest := Recurrence.levelCount_le_of_expand ran
    rw [Array.size_map, ← Array.length_toList, CallTree.toList_levels, List.length_map,
      List.length_range, count]
    omega
  obtain ⟨marks, noted, groups⟩ := noteRepeats_ofTree r.growth? counted.bounded
  refine ⟨marks, ?_, groups⟩
  simp only [unfold, budgeted, ok_bind, expanded, marked, levels, numberLevels_eq_ok few, noted,
    pure_eq_ok]

theorem generate_eq_of_depth {r : Recurrence} {view : View} {style : Style} {budget : DepthBudget}
    (settled : r.depth view.initial view.maxDepth = .ok budget) :
    generate r view style = (r.generate view style).mapError .fault := by
  obtain ⟨expansion, ran, unfolded⟩ := Recurrence.unfold_eq_ok view style.nodeLimit settled
  obtain ⟨marks, prepared, groups⟩ := unfold_ofTree settled ran
  obtain ⟨-, within, natural⟩ := Recurrence.within_of_depth settled
  have horizon : depthHorizon < UInt32.size := by decide
  have deep : (Budget.ofBudget budget).effective.toNat =
      (Unfolded.ofExpansion budget r.growth? expansion).budget.effective := by
    rw [Unfolded.budget_ofExpansion]
    exact toNat_ofNat (by omega)
  have drawn := draw_ofTree view.orientation style (counted_ofExpansion ran budget r.growth?) groups
    deep
  rw [Unfolded.growth_ofExpansion] at drawn
  rw [Recurrence.generate_eq, unfolded, generate, prepared]
  exact drawn

/-- Nothing goes wrong on words that check every operation: they end as unbounded
numbers do, with the drawing or with the first objection to what was given. -/
theorem generate_traps_only_on_objections (r : Recurrence) (view : View) (style : Style) :
    generate r view style = (r.generate view style).mapError .fault ∧
    (∀ trap, generate r view style = .error trap ↔
      ∃ objection, (r.objections view.initial).find? Objection.holds = some objection ∧
        trap = .fault objection.fault) ∧
    ∀ objection ∈ r.objections view.initial,
      (∃ cause, objection.fault = .parameter cause) ∨ objection.fault = .emptyRecurrence := by
  have same : generate r view style = (r.generate view style).mapError .fault := by
    cases settled : r.depth view.initial view.maxDepth with
    | ok budget => exact generate_eq_of_depth settled
    | error fault =>
        rw [Recurrence.generate_eq_error_iff.mpr settled, generate, unfold, depth_eq, settled]
        rfl
  refine ⟨same, ?_, fun objection => Recurrence.fault_of_mem⟩
  intro trap
  rw [same]
  constructor
  · intro refused
    cases generated : r.generate view style with
    | ok drawing =>
        rw [generated] at refused
        cases refused
    | error fault =>
        rw [generated] at refused
        cases refused
        obtain ⟨objection, found, rfl⟩ := Objection.verdict_eq_error_iff.mp
          (Recurrence.depth_eq_error_iff.mp (Recurrence.generate_eq_error_iff.mp generated))
        exact ⟨objection, found, rfl⟩
  · rintro ⟨objection, found, rfl⟩
    have refused : r.generate view style = .error objection.fault :=
      Recurrence.generate_eq_error_iff.mpr (Recurrence.depth_eq_error_iff.mpr
        (Objection.verdict_eq_error_iff.mpr ⟨objection, found, rfl⟩))
    rw [refused]
    rfl

end Unfolding.Words
