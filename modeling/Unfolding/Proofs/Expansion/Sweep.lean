import Unfolding.Proofs.Expansion.Paths
import Mathlib.Data.List.Perm.Subperm

/-!
Breadth-first listings of the calls of a linear-shift recurrence.

A sweep knows the calls listed so far, those of them that have had their turn,
and those that still wait.  Two equations tie the three lists together: what is
listed comes from the calls that had their turn, and all listed calls above the
base cases had their turn or wait.  Everything else follows from them.
-/

namespace Unfolding

open CallPath (Precedes extensions)

namespace LinearShift

variable {r : LinearShift} {first depth : Nat}

/-- The call at a path is not a base case. -/
def isOpen (r : LinearShift) (first : Nat) (path : CallPath) : Bool :=
  !r.isBase (r.argumentAt first path)

@[simp]
theorem isOpen_eq_true_iff {path : CallPath} :
    r.isOpen first path = true ↔ r.baseArgument < r.argumentAt first path := by
  simp [isOpen, isBase]

structure Sweep (r : LinearShift) (first depth : Nat) (listed done waiting : List CallPath) :
    Prop where
  listed_eq : listed = [] ::
    (done.filter fun path => path.length < depth).flatMap (extensions r.shifts.length)
  open_eq : listed.filter (r.isOpen first) = done ++ waiting
  ordered : listed.Pairwise Precedes

namespace Sweep

variable {listed done waiting rest : List CallPath} {path : CallPath}

theorem start : r.Sweep first depth [[]] [] ([[]].filter (r.isOpen first)) where
  listed_eq := rfl
  open_eq := rfl
  ordered := List.pairwise_singleton _ _

theorem nodup (sweep : r.Sweep first depth listed done waiting) : listed.Nodup :=
  sweep.ordered.imp Precedes.ne

theorem nodup_open (sweep : r.Sweep first depth listed done waiting) : (done ++ waiting).Nodup :=
  sweep.open_eq ▸ sweep.nodup.filter _

theorem mem_open_iff (sweep : r.Sweep first depth listed done waiting) :
    path ∈ done ++ waiting ↔ path ∈ listed ∧ r.baseArgument < r.argumentAt first path := by
  rw [← sweep.open_eq, List.mem_filter, isOpen_eq_true_iff]

theorem mem_of_done (sweep : r.Sweep first depth listed done waiting) (had : path ∈ done) :
    path ∈ listed ∧ r.baseArgument < r.argumentAt first path :=
  sweep.mem_open_iff.mp (List.mem_append_left _ had)

theorem mem_of_waiting (sweep : r.Sweep first depth listed done waiting) (waits : path ∈ waiting) :
    path ∈ listed ∧ r.baseArgument < r.argumentAt first path :=
  sweep.mem_open_iff.mp (List.mem_append_right _ waits)

/-- A call is listed exactly if its caller had its turn. -/
theorem concat_mem_iff (sweep : r.Sweep first depth listed done waiting) {i : Nat} :
    path ++ [i] ∈ listed ↔ path ∈ done ∧ path.length < depth ∧ i < r.shifts.length := by
  rw [sweep.listed_eq]
  simp only [List.mem_cons, List.append_eq_nil_iff, List.cons_ne_nil, and_false, false_or,
    List.mem_flatMap, List.mem_filter, decide_eq_true_eq, CallPath.mem_extensions_iff]
  constructor
  · rintro ⟨caller, ⟨had, shallow⟩, j, inside, same⟩
    obtain ⟨rfl, last⟩ := List.append_inj' same rfl
    cases last
    exact ⟨had, shallow, inside⟩
  · rintro ⟨had, shallow, inside⟩
    exact ⟨path, ⟨had, shallow⟩, i, inside, rfl⟩

/-! ### The next call -/

theorem concat_not_mem (sweep : r.Sweep first depth listed done (path :: rest)) (i : Nat) :
    path ++ [i] ∉ listed := by
  intro member
  have had := (sweep.concat_mem_iff.mp member).1
  exact (List.nodup_append.mp sweep.nodup_open).2.2 path had path (by simp) rfl

theorem concat_concat_not_mem (sweep : r.Sweep first depth listed done (path :: rest))
    (i j : Nat) : path ++ [i] ++ [j] ∉ listed := by
  intro member
  have had := (sweep.concat_mem_iff.mp member).1
  exact sweep.concat_not_mem i (sweep.mem_of_done had).1

/-- A call at the full depth makes no calls. -/
theorem skip (sweep : r.Sweep first depth listed done (path :: rest))
    (deep : depth ≤ path.length) : r.Sweep first depth listed (done ++ [path]) rest where
  listed_eq := by
    have notShallow : ¬ path.length < depth := Nat.not_lt.mpr deep
    simpa [List.filter_append, notShallow] using sweep.listed_eq
  open_eq := by
    simpa using sweep.open_eq
  ordered := sweep.ordered

/-- Any other call makes one call for each shift. -/
theorem expand (sweep : r.Sweep first depth listed done (path :: rest))
    (shallow : path.length < depth) :
    r.Sweep first depth (listed ++ extensions r.shifts.length path) (done ++ [path])
      (rest ++ (extensions r.shifts.length path).filter (r.isOpen first)) := by
  have listed_eq : listed ++ extensions r.shifts.length path = [] ::
      ((done ++ [path]).filter fun path => path.length < depth).flatMap
        (extensions r.shifts.length) := by
    rw [List.filter_append, List.flatMap_append, ← List.cons_append, ← sweep.listed_eq]
    simp [shallow]
  have callers : (done ++ [path]).Sublist listed := by
    have early : (done ++ [path]).Sublist (done ++ path :: rest) := by simp
    exact early.trans (sweep.open_eq ▸ List.filter_sublist)
  refine ⟨listed_eq, ?_, ?_⟩
  · rw [List.filter_append, sweep.open_eq]
    simp
  · rw [listed_eq, List.pairwise_cons]
    constructor
    · intro other member
      obtain ⟨caller, _, made⟩ := List.mem_flatMap.mp member
      obtain ⟨i, -, rfl⟩ := CallPath.mem_extensions_iff.mp made
      exact CallPath.nil_precedes_concat caller i
    · apply CallPath.pairwise_flatMap_extensions
      exact (sweep.ordered.sublist callers).sublist List.filter_sublist

/-! ### What is listed -/

theorem nil_mem (sweep : r.Sweep first depth listed done waiting) : [] ∈ listed := by
  rw [sweep.listed_eq]
  exact List.mem_cons_self

theorem isMade_of_mem (sweep : r.Sweep first depth listed done waiting) (member : path ∈ listed) :
    r.IsMade first depth path := by
  induction path using List.reverseRecOn with
  | nil => exact isMade_nil
  | append_singleton path i inductionHypothesis =>
      obtain ⟨had, shallow, inside⟩ := sweep.concat_mem_iff.mp member
      obtain ⟨callerListed, above⟩ := sweep.mem_of_done had
      exact isMade_concat_iff.mpr ⟨inductionHypothesis callerListed, shallow, above, inside⟩

theorem length_le_callCount (sweep : r.Sweep first depth listed done waiting) :
    listed.length ≤ r.callCount depth first := by
  rw [← length_callPaths]
  apply (List.subperm_of_subset sweep.nodup _).length_le
  intro path member
  exact mem_callPaths_iff.mpr (sweep.isMade_of_mem member)

/-- Once nothing waits, all calls are listed. -/
theorem mem_iff (sweep : r.Sweep first depth listed done []) :
    path ∈ listed ↔ r.IsMade first depth path := by
  refine ⟨sweep.isMade_of_mem, ?_⟩
  intro made
  induction path using List.reverseRecOn with
  | nil => exact sweep.nil_mem
  | append_singleton path i inductionHypothesis =>
      obtain ⟨callerMade, shallow, above, inside⟩ := isMade_concat_iff.mp made
      have had := sweep.mem_open_iff.mpr ⟨inductionHypothesis callerMade, above⟩
      exact sweep.concat_mem_iff.mpr ⟨List.append_nil done ▸ had, shallow, inside⟩

theorem length_eq_callCount (sweep : r.Sweep first depth listed done []) :
    listed.length = r.callCount depth first := by
  rw [← length_callPaths]
  apply List.Perm.length_eq
  rw [List.perm_ext_iff_of_nodup sweep.nodup nodup_callPaths]
  intro path
  rw [sweep.mem_iff, mem_callPaths_iff]

/-- While a call above the full depth waits, more calls are to come. -/
theorem length_add_le_callCount (sweep : r.Sweep first depth listed done (path :: rest))
    (shallow : path.length < depth) :
    listed.length + r.shifts.length ≤ r.callCount depth first := by
  simpa [extensions] using (sweep.expand shallow).length_le_callCount

end Sweep

end LinearShift

end Unfolding
