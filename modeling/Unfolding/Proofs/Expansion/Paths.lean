import Unfolding.Expansion.Subtraction
import Unfolding.Proofs.CallTree.Outline
import Unfolding.Proofs.Number.Numeral
import Mathlib.Data.List.Induction
import Mathlib.Data.List.Shortlex

/-!
The calls of a linear-shift recurrence, named by paths.

A path lists the positions of the shifts taken on the way from the root to a
call.  Paths are ordered by their lengths and, at one length, by their entries.
-/

namespace Unfolding

/-- The positions of the shifts taken on the way from the root to a call. -/
abbrev CallPath := List Nat

namespace CallPath

/-- Level by level, and on a level from the first shift to the last. -/
def Precedes : CallPath → CallPath → Prop := List.Shortlex (· < ·)

theorem lex_append {path other : CallPath} (earlier : List.Lex (· < ·) path other)
    (level : path.length = other.length) (tail rest : CallPath) :
    List.Lex (· < ·) (path ++ tail) (other ++ rest) := by
  induction earlier with
  | nil => simp at level
  | cons _ inductionHypothesis =>
      exact .cons (inductionHypothesis (by simpa using level))
  | rel smaller => exact .rel smaller

theorem Precedes.concat {path other : CallPath} (earlier : path.Precedes other) (i j : Nat) :
    Precedes (path ++ [i]) (other ++ [j]) := by
  rcases List.shortlex_def.mp earlier with shorter | ⟨level, earlier⟩
  · exact .of_length_lt (by simpa using shorter)
  · exact .of_lex (by simpa using level) (lex_append earlier level [i] [j])

theorem precedes_siblings (path : CallPath) {i j : Nat} (smaller : i < j) :
    Precedes (path ++ [i]) (path ++ [j]) :=
  .append_left (List.shortlex_singleton_iff i j |>.mpr smaller) path

theorem nil_precedes_concat (path : CallPath) (i : Nat) : Precedes [] (path ++ [i]) :=
  .of_length_lt (by simp)

theorem Precedes.ne {path other : CallPath} (earlier : path.Precedes other) : path ≠ other := by
  rintro rfl
  exact List.Shortlex.asymm.asymm _ _ earlier earlier

/-- The calls made by a call, one for each of `count` shifts. -/
def extensions (count : Nat) (path : CallPath) : List CallPath :=
  (List.range count).map fun i => path ++ [i]

theorem mem_extensions_iff {count : Nat} {path extended : CallPath} :
    extended ∈ extensions count path ↔ ∃ i < count, path ++ [i] = extended := by
  simp [extensions]

theorem pairwise_extensions (count : Nat) (path : CallPath) :
    (extensions count path).Pairwise Precedes := by
  unfold extensions
  rw [List.pairwise_map]
  exact List.pairwise_lt_range.imp fun smaller => precedes_siblings path smaller

/-- Calls made in the order of their callers stand in order. -/
theorem pairwise_flatMap_extensions (count : Nat) {callers : List CallPath}
    (ordered : callers.Pairwise Precedes) :
    (callers.flatMap (extensions count)).Pairwise Precedes := by
  rw [List.pairwise_flatMap]
  refine ⟨fun path _ => pairwise_extensions count path, ordered.imp ?_⟩
  intro path other earlier extended member otherExtended otherMember
  obtain ⟨i, -, rfl⟩ := mem_extensions_iff.mp member
  obtain ⟨j, -, rfl⟩ := mem_extensions_iff.mp otherMember
  exact earlier.concat i j

/-! ### Ids -/

/-- The id of a call spells out its path. -/
def id (path : CallPath) : String := path.foldl (fun id i => id ++ "." ++ toString i) "n"

@[simp]
theorem id_concat (path : CallPath) (i : Nat) :
    id (path ++ [i]) = id path ++ "." ++ toString i := by
  simp [id]

theorem toList_id (path : CallPath) :
    (id path).toList = 'n' :: path.flatMap fun i => '.' :: Nat.toDigits 10 i := by
  induction path using List.reverseRecOn with
  | nil => rfl
  | append_singleton path i inductionHypothesis =>
      simp [inductionHypothesis]

theorem flatMap_dotted_injective {path other : CallPath}
    (same : (path.flatMap fun i => '.' :: Nat.toDigits 10 i) =
      other.flatMap fun i => '.' :: Nat.toDigits 10 i) : path = other := by
  have ended (path : CallPath) :
      Number.EndsNumeral (path.flatMap fun i => '.' :: Nat.toDigits 10 i) := by
    cases path with
    | nil => exact Number.endsNumeral_nil
    | cons i path => exact Number.endsNumeral_cons rfl _
  induction path generalizing other with
  | nil =>
      cases other with
      | nil => rfl
      | cons j other => simp at same
  | cons i path inductionHypothesis =>
      cases other with
      | nil => simp at same
      | cons j other =>
          simp only [List.flatMap_cons, List.cons_append, List.cons.injEq, true_and] at same
          obtain ⟨rfl, rest⟩ := Number.toDigits_append_injective (ended path) (ended other) same
          rw [inductionHypothesis rest]

theorem id_injective {path other : CallPath} (same : id path = id other) : path = other := by
  have texts := congrArg String.toList same
  rw [toList_id, toList_id] at texts
  exact flatMap_dotted_injective (List.cons.inj texts).2

end CallPath

namespace LinearShift

variable (r : LinearShift) (first : Nat)

theorem shifts_ne_nil {r : LinearShift} (valid : r.check = .ok ()) : r.shifts ≠ [] := by
  intro none
  simp [check, none] at valid

theorem shift_pos {r : LinearShift} (valid : r.check = .ok ()) {shift : UInt32}
    (member : shift ∈ r.shifts) : 0 < shift.toNat := by
  unfold check at valid
  split at valid
  · cases valid
  · split at valid
    · cases valid
    · rename_i noZero
      have nonzero := List.findIdx?_eq_none_iff.mp noZero shift member
      apply Nat.pos_of_ne_zero
      intro zero
      obtain rfl : shift = 0 := UInt32.toNat_inj.mp zero
      cases nonzero

/-! ### Arguments -/

/-- The shift at a position. -/
def shiftAt (i : Nat) : Nat := (r.shifts.getD i 0).toNat

/-- The argument of the call at a path. -/
def argumentAt (path : CallPath) : Nat :=
  path.foldl (fun argument i => argument - r.shiftAt i) first

@[simp]
theorem argumentAt_nil : r.argumentAt first [] = first := rfl

@[simp]
theorem argumentAt_concat (path : CallPath) (i : Nat) :
    r.argumentAt first (path ++ [i]) = r.argumentAt first path - r.shiftAt i := by
  simp [argumentAt]

theorem argumentAt_le_of_shifts_ge {least : Nat} {path : CallPath}
    (atLeast : ∀ i ∈ path, least ≤ r.shiftAt i) :
    r.argumentAt first path ≤ first - path.length * least := by
  induction path using List.reverseRecOn with
  | nil => simp
  | append_singleton path i inductionHypothesis =>
      have shorter := inductionHypothesis fun j member => atLeast j (by simp [member])
      have shift := atLeast i (by simp)
      rw [argumentAt_concat, List.length_append, List.length_singleton, Nat.add_mul, Nat.one_mul]
      omega

theorem argumentAt_replicate (count i : Nat) :
    r.argumentAt first (List.replicate count i) = first - count * r.shiftAt i := by
  induction count with
  | zero => simp
  | succ count inductionHypothesis =>
      rw [List.replicate_succ', argumentAt_concat, inductionHypothesis, Nat.add_mul, Nat.one_mul]
      omega

/-! ### The calls that are made -/

/-- The call at a path is made: all calls on the way to it are above the base
cases, and the path is not longer than the depth. -/
structure IsMade (depth : Nat) (path : CallPath) : Prop where
  within : path.length ≤ depth
  positions : ∀ i ∈ path, i < r.shifts.length
  above : ∀ start, start <+: path → start ≠ path → r.baseArgument < r.argumentAt first start

variable {r first}
variable {depth : Nat}

theorem isMade_nil : r.IsMade first depth [] where
  within := Nat.zero_le depth
  positions := by simp
  above := by
    intro start shorter proper
    exact absurd (List.prefix_nil.mp shorter) proper

theorem isMade_concat_iff {path : CallPath} {i : Nat} :
    r.IsMade first depth (path ++ [i]) ↔
      r.IsMade first depth path ∧ path.length < depth ∧
        r.baseArgument < r.argumentAt first path ∧ i < r.shifts.length := by
  constructor
  · intro made
    have within := made.within
    rw [List.length_append, List.length_singleton] at within
    refine ⟨⟨by omega, ?_, ?_⟩, by omega, ?_, made.positions i (by simp)⟩
    · intro j member
      exact made.positions j (by simp [member])
    · intro start shorter _
      apply made.above start (shorter.trans (List.prefix_append path [i]))
      intro same
      have lengths := shorter.length_le
      rw [same, List.length_append, List.length_singleton] at lengths
      omega
    · exact made.above path (List.prefix_append path [i]) (by simp)
  · rintro ⟨made, within, above, inside⟩
    refine ⟨by simpa using Nat.succ_le_of_lt within, ?_, ?_⟩
    · intro j member
      rcases List.mem_append.mp member with member | last
      · exact made.positions j member
      · rw [List.mem_singleton.mp last]
        exact inside
    · intro start shorter proper
      rcases List.prefix_concat_iff.mp shorter with whole | shorter
      · exact absurd whole proper
      · by_cases whole : start = path
        · rw [whole]
          exact above
        · exact made.above start shorter whole

theorem shiftAt_eq_toNat {i : Nat} {shift : UInt32} (found : r.shifts[i]? = some shift) :
    r.shiftAt i = shift.toNat := by
  simp [shiftAt, found]

/-- Some call at the full depth is above the base cases exactly if repeating
one shift leads there. -/
theorem exists_isMade_above_iff (nonempty : r.shifts ≠ []) :
    (∃ path, r.IsMade first depth path ∧ path.length = depth ∧
        r.baseArgument < r.argumentAt first path) ↔
      ∃ shift ∈ r.shifts, r.baseArgument < first - depth * shift.toNat := by
  constructor
  · rintro ⟨path, made, full, above⟩
    have mapped : r.shifts.map UInt32.toNat ≠ [] := by simpa using nonempty
    obtain ⟨shift, member, least⟩ := List.mem_map.mp (List.min_mem mapped)
    refine ⟨shift, member, ?_⟩
    have atLeast : ∀ i ∈ path, shift.toNat ≤ r.shiftAt i := by
      intro i onPath
      have found := List.getElem?_eq_getElem (made.positions i onPath)
      rw [shiftAt_eq_toNat found, least]
      exact List.min_le_of_mem (List.mem_map_of_mem (List.getElem_mem _))
    have low := r.argumentAt_le_of_shifts_ge first atLeast
    rw [full] at low
    omega
  · rintro ⟨shift, member, above⟩
    obtain ⟨i, found⟩ := List.getElem?_of_mem member
    obtain ⟨inside, -⟩ := List.getElem?_eq_some_iff.mp found
    have repeated (count : Nat) (bounded : count ≤ depth) :
        r.baseArgument < r.argumentAt first (List.replicate count i) := by
      rw [argumentAt_replicate, shiftAt_eq_toNat found]
      have smaller : count * shift.toNat ≤ depth * shift.toNat := Nat.mul_le_mul_right _ bounded
      omega
    refine ⟨List.replicate depth i, ⟨by simp, ?_, ?_⟩, by simp, repeated depth (Nat.le_refl _)⟩
    · intro j onPath
      rw [List.eq_of_mem_replicate onPath]
      exact inside
    · intro start shorter _
      obtain ⟨bounded, same⟩ := List.prefix_replicate_iff.mp shorter
      rw [same]
      exact repeated _ bounded

/-! ### How many calls there are -/

/-- All paths of calls below a call with an argument, the call itself included. -/
def callPaths (r : LinearShift) : (depth : Nat) → (argument : Nat) → List CallPath
  | 0, _ => [[]]
  | depth + 1, argument =>
      if r.isBase argument then [[]]
      else [] :: (List.range r.shifts.length).flatMap fun i =>
        (callPaths r depth (argument - r.shiftAt i)).map (i :: ·)

/-- The number of calls that a call with an argument leads to, itself included. -/
def callCount (r : LinearShift) : (depth : Nat) → (argument : Nat) → Nat
  | 0, _ => 1
  | depth + 1, argument =>
      if r.isBase argument then 1
      else 1 + (r.shifts.map fun shift => callCount r depth (argument - shift.toNat)).sum

theorem isMade_cons_iff {path : CallPath} {i : Nat} :
    r.IsMade first (depth + 1) (i :: path) ↔
      r.baseArgument < first ∧ i < r.shifts.length ∧
        r.IsMade (first - r.shiftAt i) depth path := by
  constructor
  · intro made
    have within := made.within
    rw [List.length_cons] at within
    refine ⟨made.above [] (List.nil_prefix) (by simp), made.positions i (by simp),
      by omega, fun j member => made.positions j (by simp [member]), ?_⟩
    intro start shorter proper
    exact made.above (i :: start) (List.prefix_cons_inj i |>.mpr shorter) (by simpa using proper)
  · rintro ⟨above, inside, made⟩
    refine ⟨Nat.succ_le_succ made.within, ?_, ?_⟩
    · intro j member
      rcases List.mem_cons.mp member with rfl | member
      · exact inside
      · exact made.positions j member
    · intro start shorter proper
      rcases List.prefix_cons_iff.mp shorter with rfl | ⟨rest, rfl, restShorter⟩
      · exact above
      · exact made.above rest restShorter (by simpa using proper)

theorem isBase_eq_false_iff {argument : Nat} :
    r.isBase argument = false ↔ r.baseArgument < argument := by
  simp [isBase]

theorem mem_callPaths_iff {path : CallPath} :
    path ∈ r.callPaths depth first ↔ r.IsMade first depth path := by
  induction depth generalizing first path with
  | zero =>
      rw [callPaths, List.mem_singleton]
      constructor
      · rintro rfl
        exact isMade_nil
      · intro made
        exact List.eq_nil_of_length_eq_zero (Nat.le_zero.mp made.within)
  | succ depth inductionHypothesis =>
      rw [callPaths]
      cases path with
      | nil => split <;> simp [isMade_nil]
      | cons i path =>
          rw [isMade_cons_iff, ← isBase_eq_false_iff]
          split
          · rename_i base
            simp [base]
          · rename_i above
            simp [above, inductionHypothesis]

theorem nodup_callPaths : (r.callPaths depth first).Nodup := by
  induction depth generalizing first with
  | zero => simp [callPaths]
  | succ depth inductionHypothesis =>
      rw [callPaths]
      split
      · simp
      · rw [List.nodup_cons, List.nodup_flatMap]
        refine ⟨by simp, ?_, ?_⟩
        · intro i _
          exact inductionHypothesis.map (List.cons_injective)
        · apply List.pairwise_lt_range.imp
          intro i j smaller path member other
          obtain ⟨rest, -, rfl⟩ := List.mem_map.mp member
          obtain ⟨otherRest, -, same⟩ := List.mem_map.mp other
          exact Nat.ne_of_gt smaller (List.cons.inj same).1

theorem map_shiftAt_range {α : Type} (use : Nat → α) :
    (List.range r.shifts.length).map (fun i => use (r.shiftAt i)) =
      r.shifts.map fun shift => use shift.toNat := by
  apply List.ext_getElem (by simp)
  intro i inside _
  simp [shiftAt] at inside ⊢
  simp [inside]

theorem length_callPaths : (r.callPaths depth first).length = r.callCount depth first := by
  induction depth generalizing first with
  | zero => simp [callPaths, callCount]
  | succ depth inductionHypothesis =>
      rw [callPaths, callCount]
      split
      · simp
      · rw [← map_shiftAt_range fun shift => r.callCount depth (first - shift)]
        simp [List.length_flatMap, inductionHypothesis, Nat.add_comm]

end LinearShift

end Unfolding
