import Unfolding.Proofs.CallTree.Levels
import Unfolding.Proofs.Expansion.Order

/-!
When a drawing is refused, and why.

A request is checked before anything else is done.  The checks are listed here as
objections, and the first one that holds is the reason given.  Where none holds
there is a drawing: neither the rows of a divide-and-conquer tree nor the slots
of a tree nor the positions of its calls can fail to fit.
-/

namespace Unfolding

/-- Something that can be wrong with a request, and the fault that it is. -/
structure Objection where
  holds : Bool
  fault : Fault

namespace Objection

/-- The first objection that holds decides. -/
def verdict (objections : List Objection) : Except Fault Unit :=
  match objections.find? holds with
  | some objection => .error objection.fault
  | none => .ok ()

@[simp]
theorem verdict_nil : verdict [] = .ok () := rfl

@[simp]
theorem verdict_cons (objection : Objection) (objections : List Objection) :
    verdict (objection :: objections) =
      if objection.holds then .error objection.fault else verdict objections := by
  cases held : objection.holds <;> simp [verdict, held]

theorem verdict_append (objections more : List Objection) :
    verdict (objections ++ more) = (verdict objections).bind fun _ => verdict more := by
  induction objections with
  | nil => rfl
  | cons objection objections inductionHypothesis =>
      rw [List.cons_append, verdict_cons, verdict_cons, inductionHypothesis]
      split <;> rfl

theorem verdict_eq_error_iff {objections : List Objection} {fault : Fault} :
    verdict objections = .error fault ↔
      ∃ objection, objections.find? holds = some objection ∧ objection.fault = fault := by
  unfold verdict
  cases objections.find? holds <;> simp

end Objection

open Objection (verdict)

/-! ### The objections to a request -/

namespace DivideConquer

def objections (r : DivideConquer) : List Objection := [
  { holds := r.branching = 0
    fault := .parameter (.branchingFactor 0) },
  { holds := r.reduction.isFinite = false ∨ r.reduction ≤ 1
    fault := .parameter (.reductionFactor r.reduction) }]

theorem check_eq_verdict (r : DivideConquer) : r.check = verdict r.objections := by
  unfold check
  by_cases branches : r.branching = 0
  · simp [objections, branches]
  · simp [objections, branches]

end DivideConquer

namespace LinearShift

/-- A shift of zero is an objection at its own position. -/
def shiftObjection (r : LinearShift) (position : Nat) : Objection where
  holds := r.shifts[position]? = some 0
  fault := .parameter (.zeroShift position)

def objections (r : LinearShift) : List Objection :=
  { holds := r.shifts = []
    fault := .emptyRecurrence } ::
  (List.range r.shifts.length).map r.shiftObjection ++ [
  { holds := r.coefficients.length ≠ r.shifts.length
    fault := .parameter (.coefficientMismatch r.shifts.length r.coefficients.length) }]

/-- The objection at the first zero shift comes first. -/
theorem find?_shiftObjection (r : LinearShift) :
    ((List.range r.shifts.length).map r.shiftObjection).find? Objection.holds =
      (r.shifts.findIdx? (· == 0)).map r.shiftObjection := by
  rw [List.find?_map]
  congr 1
  cases found : r.shifts.findIdx? (· == 0) with
  | none =>
      rw [List.find?_range_eq_none]
      intro position inside
      have nonzero := List.findIdx?_eq_none_iff.mp found _ (List.getElem_mem inside)
      simpa [shiftObjection, inside] using nonzero
  | some position =>
      obtain ⟨inside, zero, before⟩ := List.findIdx?_eq_some_iff_getElem.mp found
      rw [List.find?_range_eq_some]
      refine ⟨by simpa [shiftObjection, inside] using zero, List.mem_range.mpr inside, ?_⟩
      intro earlier smaller
      have nonzero := before earlier smaller
      simpa [shiftObjection, Nat.lt_trans smaller inside] using nonzero

theorem check_eq_verdict (r : LinearShift) : r.check = verdict r.objections := by
  unfold check objections
  rw [List.cons_append, Objection.verdict_cons, Objection.verdict_append, verdict,
    find?_shiftObjection]
  cases r.shifts.findIdx? (· == 0) with
  | none => simp [Except.bind]
  | some position => simp [Except.bind, shiftObjection]

end LinearShift

/-- The first size has to be a finite number that is not negative. -/
def sizeObjection (initial : Float) : Objection where
  holds := initial.isFinite = false ∨ initial < 0
  fault := .parameter (.initialSize initial)

theorem checkInitialSize_eq_verdict (initial : Float) :
    checkInitialSize initial = verdict [sizeObjection initial] := by
  simp [checkInitialSize, sizeObjection]

namespace Recurrence

def objections (r : Recurrence) (initial : Float) : List Objection :=
  match r with
  | .divideConquer r => r.objections ++ [sizeObjection initial]
  | .linearShift r => r.objections ++ [sizeObjection initial]

/-- All objections are to what was given. -/
theorem fault_of_mem {r : Recurrence} {initial : Float} {objection : Objection}
    (member : objection ∈ r.objections initial) :
    (∃ cause, objection.fault = .parameter cause) ∨ objection.fault = .emptyRecurrence := by
  cases r with
  | divideConquer r =>
      simp only [objections, DivideConquer.objections, List.mem_append, List.mem_cons,
        List.not_mem_nil, or_false] at member
      rcases member with (rfl | rfl) | rfl <;> exact .inl ⟨_, rfl⟩
  | linearShift r =>
      simp only [objections, LinearShift.objections, List.mem_append, List.mem_cons, List.mem_map,
        List.not_mem_nil, or_false] at member
      rcases member with ((rfl | ⟨position, -, rfl⟩) | rfl) | rfl
      · exact .inr rfl
      all_goals exact .inl ⟨_, rfl⟩

theorem depth_eq_error_iff {r : Recurrence} {initial : Float} {requested : Option UInt32}
    {fault : Fault} :
    r.depth initial requested = .error fault ↔
      verdict (r.objections initial) = .error fault := by
  cases r with
  | divideConquer r =>
      simp only [depth, objections, DivideConquer.depth, Objection.verdict_append,
        ← DivideConquer.check_eq_verdict, ← checkInitialSize_eq_verdict]
      cases r.check <;> cases checkInitialSize initial <;>
        simp [bind, Except.bind, pure, Except.pure]
  | linearShift r =>
      simp only [depth, objections, LinearShift.depth, Objection.verdict_append,
        ← LinearShift.check_eq_verdict, ← checkInitialSize_eq_verdict]
      cases r.check <;> cases checkInitialSize initial <;>
        simp [bind, Except.bind, pure, Except.pure]

variable {r : Recurrence} {view : View} {style : Style}

/-- Nothing fails once the depth is settled. -/
theorem generate_eq_error_iff {fault : Fault} :
    r.generate view style = .error fault ↔
      r.depth view.initial view.maxDepth = .error fault := by
  cases settled : r.depth view.initial view.maxDepth with
  | error cause =>
      have refused : r.generate view style = .error cause := by
        rw [generate_eq, unfold, settled]
      rw [refused, Except.error.injEq, Except.error.injEq]
  | ok budget =>
      obtain ⟨drawing, generated⟩ : ∃ drawing, r.generate view style = .ok drawing :=
        generate_eq_ok settled
      simp [generated]

theorem exists_root {budget : DepthBudget}
    (settled : r.depth view.initial view.maxDepth = .ok budget) :
    ∃ drawing root, r.generate view style = .ok drawing ∧ drawing.root? = some root ∧
      root.level = 0 := by
  obtain ⟨drawing, generated⟩ : ∃ drawing, r.generate view style = .ok drawing :=
    generate_eq_ok settled
  obtain ⟨same, expansion, -, run, drawn⟩ := exists_of_generate generated
  obtain ⟨Key, outline, keys, follows, nonempty, -⟩ := exists_follows_of_expand run
  have unfoldedFollows :
      (Unfolded.ofExpansion same r.growth? expansion).tree.Follows outline keys :=
    Unfolded.follows_ofExpansion follows
  have size : 0 < (Unfolded.ofExpansion same r.growth? expansion).tree.size := by
    rw [unfoldedFollows.size]
    exact List.length_pos_of_ne_nil nonempty
  obtain ⟨call, found⟩ := CallTree.lt_size_iff.mp size
  obtain ⟨position, place⟩ := Drawing.getElem?_nodes drawn found
  refine ⟨drawing, _, generated, place, ?_⟩
  have linked : (Unfolded.ofExpansion same r.growth? expansion).tree.Linked :=
    Unfolded.linked_ofExpansion (linked_of_expand run)
  have top := linked.level?_zero size
  rw [CallTree.level?, found, Option.map_some] at top
  exact Option.some.inj top

/-- A drawing is refused for the first objection that holds, and for nothing
else. -/
theorem generate_refuses_first_objection (r : Recurrence) (view : View) (style : Style) :
    (∀ fault, r.generate view style = .error fault ↔
      ∃ objection, (r.objections view.initial).find? Objection.holds = some objection ∧
        objection.fault = fault) ∧
    (∀ level index, r.generate view style ≠ .error (.orphan level index)) ∧
    ((r.objections view.initial).find? Objection.holds = none →
      ∃ drawing root, r.generate view style = .ok drawing ∧ drawing.root? = some root ∧
        root.level = 0) := by
  have refused (fault : Fault) : r.generate view style = .error fault ↔
      ∃ objection, (r.objections view.initial).find? Objection.holds = some objection ∧
        objection.fault = fault := by
    rw [generate_eq_error_iff, depth_eq_error_iff, Objection.verdict_eq_error_iff]
  refine ⟨refused, ?_, ?_⟩
  · intro level index orphaned
    obtain ⟨objection, found, same⟩ := (refused _).mp orphaned
    rcases fault_of_mem (List.mem_of_find?_eq_some found) with ⟨cause, parameter⟩ | empty
    · cases same.symm.trans parameter
    · cases same.symm.trans empty
  · intro none
    cases settled : r.depth view.initial view.maxDepth with
    | ok budget => exact exists_root settled
    | error fault =>
        obtain ⟨objection, found, -⟩ :=
          Objection.verdict_eq_error_iff.mp (depth_eq_error_iff.mp settled)
        rw [none] at found
        cases found

/-- A negative zero is no objection, not even together with the largest branching
factor and no room for calls; of several objections the first one counts. -/
theorem generate_refuses_first_objection_extremes :
    let widest : DivideConquer := ⟨4294967295, 1.5, "n", -1⟩
    let idle : LinearShift := ⟨[3, 0, 0], ["1"], none, 0⟩
    (∃ drawing root, (divideConquer widest).generate { initial := -0.0 }
        { Style.standard with nodeLimit := 0 } = .ok drawing ∧
      drawing.root? = some root ∧ root.level = 0) ∧
    (linearShift idle).generate { initial := -1 } .standard =
      .error (.parameter (.zeroShift 1)) := by
  constructor
  · exact (generate_refuses_first_objection _ _ _).2.2 rfl
  · exact ((generate_refuses_first_objection _ _ _).1 _).mpr ⟨_, rfl, rfl⟩

end Recurrence

end Unfolding
