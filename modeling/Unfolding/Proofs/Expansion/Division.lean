import Unfolding.Expansion.Division
import Unfolding.Proofs.CallTree.Outline
import Unfolding.Proofs.Number.Numeral

/-!
The rows of a divide-and-conquer recurrence.

A call is named by its level and its index there.  The tree of an unfolding
holds whole rows from the root on, and only the last of them can hold base
cases.
-/

namespace Unfolding

namespace DivideConquer

variable {r : DivideConquer} {initial : Float}

/-- The size of the calls on a level. -/
def sizeAt (r : DivideConquer) (initial : Float) : (level : Nat) → Float
  | 0 => initial
  | level + 1 => sizeAt r initial level / r.reduction

theorem sizeAt_div (level : Nat) :
    r.sizeAt (initial / r.reduction) level = r.sizeAt initial (level + 1) := by
  induction level with
  | zero => rfl
  | succ level inductionHypothesis => rw [sizeAt, inductionHypothesis, ← sizeAt]

/-- The number of calls on a level. -/
def widthAt (r : DivideConquer) : (level : Nat) → Nat
  | 0 => 1
  | level + 1 => widthAt r level * r.branching.toNat

theorem callId_injective {level index otherLevel otherIndex : Nat}
    (same : callId level index = callId otherLevel otherIndex) :
    level = otherLevel ∧ index = otherIndex := by
  have texts := congrArg String.toList same
  simp only [callId, String.toList_append, Nat.toString_eq_repr, Nat.toList_repr,
    List.append_assoc] at texts
  have afterPrefix := List.append_cancel_left texts
  have dash (index : Nat) : Number.EndsNumeral ("-".toList ++ Nat.toDigits 10 index) :=
    Number.endsNumeral_cons rfl _
  obtain ⟨levels, rest⟩ :=
    Number.toDigits_append_injective (dash index) (dash otherIndex) afterPrefix
  exact ⟨levels, Number.toDigits_injective (List.append_cancel_left rest)⟩

theorem index_offset_injective {branching index other i j : Nat} (bounded : i < branching)
    (otherBounded : j < branching) (same : index * branching + i = other * branching + j) :
    index = other ∧ i = j := by
  have quotient := congrArg (· / branching) same
  have positive : 0 < branching := Nat.zero_lt_of_lt bounded
  simp only [Nat.mul_comm _ branching, Nat.mul_add_div positive, Nat.div_eq_of_lt bounded,
    Nat.div_eq_of_lt otherBounded, Nat.add_zero] at quotient
  subst quotient
  exact ⟨rfl, Nat.add_left_cancel same⟩

/-- The calls from a first size, named by their levels and indices. -/
def outline (r : DivideConquer) (initial : Float) : Outline (Nat × Nat) where
  arity := r.branching.toNat
  child call i := (call.1 + 1, call.2 * r.branching.toNat + i)
  id call := callId call.1 call.2
  argument call := r.sizeAt initial call.1
  level := Prod.fst
  isBase call := r.isBase (r.sizeAt initial call.1)
  child_injective := by
    rintro ⟨level, index⟩ ⟨otherLevel, otherIndex⟩ i j bounded otherBounded same
    obtain ⟨levels, places⟩ := Prod.mk.inj same
    obtain ⟨indices, offsets⟩ := index_offset_injective bounded otherBounded places
    exact ⟨Prod.ext (Nat.succ.inj levels) indices, offsets⟩
  level_child := by simp
  id_injective := by
    rintro ⟨level, index⟩ ⟨otherLevel, otherIndex⟩ same
    obtain ⟨rfl, rfl⟩ := callId_injective same
    rfl

/-- The calls on a level, up to an index. -/
def rowCalls (level count : Nat) : List (Nat × Nat) := (List.range count).map (level, ·)

/-- The calls on the levels down to `last`. -/
def callsThrough (r : DivideConquer) : (last : Nat) → List (Nat × Nat)
  | 0 => rowCalls 0 1
  | last + 1 => callsThrough r last ++ rowCalls (last + 1) (r.widthAt (last + 1))

theorem mem_rowCalls_iff {level count : Nat} {call : Nat × Nat} :
    call ∈ rowCalls level count ↔ call.1 = level ∧ call.2 < count := by
  obtain ⟨other, index⟩ := call
  simp [rowCalls, eq_comm, and_comm]

theorem rowCalls_succ (level count : Nat) :
    rowCalls level (count + 1) = rowCalls level count ++ [(level, count)] := by
  simp [rowCalls, List.range_succ]

theorem mem_callsThrough_iff {last : Nat} {call : Nat × Nat} :
    call ∈ r.callsThrough last ↔ call.1 ≤ last ∧ call.2 < r.widthAt call.1 := by
  induction last with
  | zero =>
      rw [callsThrough, mem_rowCalls_iff, Nat.le_zero]
      constructor
      · rintro ⟨level, inside⟩
        exact ⟨level, level ▸ inside⟩
      · rintro ⟨level, inside⟩
        rw [level] at inside
        exact ⟨level, inside⟩
  | succ last inductionHypothesis =>
      rw [callsThrough, List.mem_append, inductionHypothesis, mem_rowCalls_iff]
      constructor
      · rintro (⟨above, inside⟩ | ⟨level, inside⟩)
        · exact ⟨Nat.le_succ_of_le above, inside⟩
        · exact ⟨Nat.le_of_eq level, level ▸ inside⟩
      · rintro ⟨above, inside⟩
        rcases Nat.le_succ_iff.mp above with above | level
        · exact .inl ⟨above, inside⟩
        · rw [level] at inside
          exact .inr ⟨level, inside⟩

/-! ### Adding a row -/

/-- A row holds the calls on its level, among those of `keys`. -/
structure IsRow (r : DivideConquer) (initial : Float) (keys : List (Nat × Nat)) (row : Row) :
    Prop where
  width : row.width = r.widthAt row.level
  size : row.size = r.sizeAt initial row.level
  calls : ∀ index < row.width, keys[row.first + index]? = some (row.level, index)

section Row

variable {keys : List (Nat × Nat)} {above row : Row} {tree : CallTree} {index count : Nat}

theorem addCall_follows (rowAbove : r.IsRow initial keys above)
    (known : ∀ call ∈ keys, call.1 ≤ above.level)
    (level : row.level = above.level + 1) (size : row.size = r.sizeAt initial row.level)
    (inside : index < above.width * r.branching.toNat) (room : tree.size < CallTree.capacity)
    (follows : tree.Follows (r.outline initial) (keys ++ rowCalls row.level index)) :
    ∃ result, r.addCall above row tree index = .ok result ∧
      result = { tree with calls := result.calls } ∧
      result.Follows (r.outline initial) (keys ++ rowCalls row.level (index + 1)) := by
  have positive : 0 < r.branching.toNat := Nat.pos_of_mul_pos_left (Nat.zero_lt_of_lt inside)
  have caller : index / r.branching.toNat < above.width := by
    apply Nat.div_lt_of_lt_mul
    rw [Nat.mul_comm]
    exact inside
  have child : (r.outline initial).child (above.level, index / r.branching.toNat)
      (index % r.branching.toNat) = (row.level, index) :=
    Prod.ext level.symm (Nat.div_add_mod' index r.branching.toNat)
  have found : (keys ++ rowCalls row.level index)[above.first + index / r.branching.toNat]? =
      some (above.level, index / r.branching.toNat) := by
    have place := rowAbove.calls _ caller
    obtain ⟨within, -⟩ := List.getElem?_eq_some_iff.mp place
    rw [List.getElem?_append_left within, place]
  have made : ∀ i < r.branching.toNat,
      (r.outline initial).child (above.level, index / r.branching.toNat) i ∈
        keys ++ rowCalls row.level index ↔ i < index % r.branching.toNat := by
    intro i _
    have split := Nat.div_add_mod' index r.branching.toNat
    simp only [outline, List.mem_append, mem_rowCalls_iff, level, true_and]
    constructor
    · rintro (old | new)
      · exact absurd (known _ old) (Nat.not_succ_le_self _)
      · omega
    · intro earlier
      exact .inr (by omega)
  have childless : (r.outline initial).Childless (keys ++ rowCalls row.level index)
      (row.level, index) := by
    intro i _
    simp only [outline, List.mem_append, mem_rowCalls_iff]
    rintro (old | ⟨same, -⟩)
    · have bounded := known _ old
      omega
    · omega
  have offset : index % r.branching.toNat < (r.outline initial).arity := Nat.mod_lt index positive
  rw [← child] at childless
  obtain ⟨result, added, unchanged, resultFollows⟩ :=
    follows.addChild room found offset made childless
  rw [child] at added resultFollows
  refine ⟨result, ?_, unchanged, ?_⟩
  · unfold addCall
    dsimp only
    rw [if_pos caller, size]
    exact added
  · rw [rowCalls_succ, ← List.append_assoc]
    exact resultFollows

/-- The calls of a row are added one after another. -/
theorem foldlM_addCall_follows (rowAbove : r.IsRow initial keys above)
    (known : ∀ call ∈ keys, call.1 ≤ above.level)
    (level : row.level = above.level + 1) (size : row.size = r.sizeAt initial row.level)
    (room : tree.size + count ≤ CallTree.capacity)
    (bounded : count ≤ above.width * r.branching.toNat)
    (follows : tree.Follows (r.outline initial) keys) :
    ∃ result, (List.range count).foldlM (r.addCall above row) tree = .ok result ∧
      result = { tree with calls := result.calls } ∧
      result.Follows (r.outline initial) (keys ++ rowCalls row.level count) := by
  induction count with
  | zero =>
      refine ⟨tree, rfl, rfl, ?_⟩
      simpa [rowCalls] using follows
  | succ count inductionHypothesis =>
      obtain ⟨before, added, unchanged, beforeFollows⟩ :=
        inductionHypothesis (by omega) (by omega)
      have sized : before.size = tree.size + count := by
        rw [beforeFollows.size, List.length_append, follows.size]
        simp [rowCalls]
      obtain ⟨result, last, unchangedLast, resultFollows⟩ :=
        addCall_follows rowAbove known level size (by omega) (by omega) beforeFollows
      refine ⟨result, ?_, ?_, resultFollows⟩
      · rw [List.range_succ, List.foldlM_append, added]
        change r.addCall above row before count >>= pure = _
        rw [last]
        rfl
      · rw [unchangedLast, unchanged]

theorem isRow_nextRow (rowAbove : r.IsRow initial keys above)
    (follows : tree.Follows (r.outline initial) keys) :
    r.IsRow initial (keys ++ rowCalls (above.level + 1) (r.nextRow above tree).width)
      (r.nextRow above tree) where
  width := by
    simp only [nextRow, rowAbove.width]
    rfl
  size := by
    simp only [nextRow, rowAbove.size]
    rfl
  calls := by
    intro index inside
    have place : (r.nextRow above tree).first = keys.length := follows.size
    rw [place, List.getElem?_append_right (Nat.le_add_right _ _), Nat.add_sub_cancel_left]
    rw [rowCalls, List.getElem?_map, List.getElem?_range inside]
    rfl

theorem addRow_follows (rowAbove : r.IsRow initial keys above)
    (known : ∀ call ∈ keys, call.1 ≤ above.level)
    (follows : tree.Follows (r.outline initial) keys)
    (room : tree.size + (r.nextRow above tree).width ≤ CallTree.capacity) :
    ∃ result, r.addRow above (r.nextRow above tree) tree = .ok result ∧
      result.isTruncated = tree.isTruncated ∧
      result.rowWidths = tree.rowWidths.push (r.nextRow above tree).width ∧
      result.Follows (r.outline initial)
        (keys ++ rowCalls (above.level + 1) (r.nextRow above tree).width) := by
  have size := (isRow_nextRow rowAbove follows).size
  obtain ⟨result, added, unchanged, resultFollows⟩ :=
    foldlM_addCall_follows rowAbove known rfl size room (Nat.le_refl _) follows
  refine ⟨{ result with rowWidths := result.rowWidths.push (r.nextRow above tree).width }, ?_, ?_,
    ?_, resultFollows.of_calls_eq rfl⟩
  · rw [addRow, added]
  · rw [unchanged]
  · rw [unchanged]

end Row

/-! ### Whole runs -/

/-- How an unfolding under a limit ends: after a row of base cases, at the full
depth, or before a row that did not fit. -/
inductive Outcome (r : DivideConquer) (initial : Float) (depth : Nat) (expansion : Expansion) :
    Prop
  | complete {last : Nat}
      (follows : expansion.tree.Follows (r.outline initial) (r.callsThrough last))
      (above : ∀ level < last, r.isBase (r.sizeAt initial level) = false)
      (ended : last = depth ∨ r.isBase (r.sizeAt initial last) = true)
      (within : last ≤ depth)
      (whole : expansion.tree.isTruncated = false) (unstopped : expansion.stop = none)
      (widths : expansion.tree.rowWidths.toList = (List.range (last + 1)).map r.widthAt)
  | cut {last : Nat}
      (follows : expansion.tree.Follows (r.outline initial) (r.callsThrough last))
      (above : ∀ level ≤ last, r.isBase (r.sizeAt initial level) = false)
      (truncated : expansion.tree.isTruncated = true)
      (stopped : expansion.stop = some { emitted := expansion.tree.size, level := last })
      (widths : expansion.tree.rowWidths.toList = (List.range (last + 1)).map r.widthAt)

/-- An unfolding ends with a row, and no row above it is of base cases.  Without a stop,
it goes on until the depth is used up or a row is of base cases. -/
theorem Outcome.exists_last {depth : Nat} {expansion : Expansion}
    (outcome : r.Outcome initial depth expansion) :
    ∃ last, expansion.tree.Follows (r.outline initial) (r.callsThrough last) ∧
      (∀ level < last, r.isBase (r.sizeAt initial level) = false) ∧
      expansion.tree.rowWidths.toList = (List.range (last + 1)).map r.widthAt ∧
      (expansion.stop = none →
        last ≤ depth ∧ (last = depth ∨ r.isBase (r.sizeAt initial last) = true)) := by
  cases outcome with
  | complete follows above ended within whole unstopped widths =>
      exact ⟨_, follows, above, widths, fun _ => ⟨within, ended⟩⟩
  | cut follows above truncated stopped widths =>
      refine ⟨_, follows, fun level higher => above level (Nat.le_of_lt higher), widths, ?_⟩
      intro unstopped
      rw [stopped] at unstopped
      cases unstopped

theorem addRows_outcome {limit left depth : Nat} {above : Row} {tree : CallTree}
    (representable : limit ≤ CallTree.capacity) (sized : tree.size ≤ CallTree.capacity)
    (rowAbove : r.IsRow initial (r.callsThrough above.level) above)
    (follows : tree.Follows (r.outline initial) (r.callsThrough above.level))
    (higher : ∀ level < above.level, r.isBase (r.sizeAt initial level) = false)
    (widths : tree.rowWidths.toList = (List.range (above.level + 1)).map r.widthAt)
    (whole : tree.isTruncated = false) (levels : above.level + left = depth) :
    ∃ expansion, r.addRows limit left above tree = .ok expansion ∧
      r.Outcome initial depth expansion := by
  induction left generalizing above tree with
  | zero =>
      exact ⟨_, rfl, .complete follows higher (.inl levels) (Nat.le_of_eq levels) whole rfl
        widths⟩
  | succ left inductionHypothesis =>
      rw [addRows]
      cases base : r.isBase above.size with
      | true =>
          rw [rowAbove.size] at base
          exact ⟨_, rfl, .complete follows higher (.inr base) (by omega) whole rfl widths⟩
      | false =>
          have through : ∀ level ≤ above.level, r.isBase (r.sizeAt initial level) = false := by
            intro level below
            rcases Nat.lt_or_eq_of_le below with below | rfl
            · exact higher level below
            · rw [← rowAbove.size]
              exact base
          rw [if_neg Bool.false_ne_true]
          dsimp only
          split
          · rename_i fits
            have known : ∀ call ∈ r.callsThrough above.level, call.1 ≤ above.level := by
              intro call member
              exact (mem_callsThrough_iff.mp member).1
            obtain ⟨extended, added, kept, grown, extendedFollows⟩ :=
              addRow_follows rowAbove known follows (by omega)
            have row := isRow_nextRow rowAbove follows
            rw [added]
            have extendedWidths : extended.rowWidths.toList =
                (List.range ((r.nextRow above tree).level + 1)).map r.widthAt := by
              have levels : List.range ((r.nextRow above tree).level + 1) =
                  List.range (above.level + 1) ++ [above.level + 1] := List.range_succ
              rw [grown, Array.toList_push, widths, row.width, levels, List.map_append]
              rfl
            have keys : r.callsThrough above.level ++
                rowCalls (above.level + 1) (r.nextRow above tree).width =
                  r.callsThrough (r.nextRow above tree).level := by
              rw [row.width]
              rfl
            rw [keys] at row extendedFollows
            have extendedSized : extended.size ≤ CallTree.capacity := by
              rw [extendedFollows.size, ← keys, List.length_append, ← follows.size]
              simp only [rowCalls, List.length_map, List.length_range]
              omega
            exact inductionHypothesis extendedSized row extendedFollows
              (fun level below => through level (Nat.le_of_lt_succ below)) extendedWidths
              (kept.trans whole) (by simp only [nextRow]; omega)
          · exact ⟨_, rfl, .cut (follows.of_calls_eq rfl) through rfl rfl widths⟩

/-- Unfolding a divide-and-conquer recurrence never fails. -/
theorem expand_outcome (r : DivideConquer) (initial : Float) (depth : Nat) (nodeLimit : UInt64) :
    ∃ expansion, r.expand initial depth nodeLimit = .ok expansion ∧
      r.Outcome initial depth expansion := by
  have empty : CallTree.size { family := .divideConquer, rowWidths := #[1] } = 0 := rfl
  have top : (r.outline initial).level (0, 0) = 0 := rfl
  obtain ⟨tree, added, unchanged, follows⟩ :=
    CallTree.Follows.addRoot (r.outline initial) empty top
  have rooted : CallTree.addRoot { family := .divideConquer, rowWidths := #[1] } (callId 0 0)
      initial (r.isBase initial) = .ok tree := added
  have sized : tree.size ≤ CallTree.capacity := by
    rw [follows.size]
    decide
  have row : r.IsRow initial (r.callsThrough 0)
      { level := 0, first := 0, width := 1, size := initial } := by
    refine ⟨rfl, rfl, ?_⟩
    intro index inside
    obtain rfl := Nat.lt_one_iff.mp inside
    rfl
  unfold expand
  dsimp only
  rw [rooted]
  apply addRows_outcome (Nat.min_le_right _ _) sized row follows
  · intro level below
    exact absurd below (Nat.not_lt_zero level)
  · rw [unchanged]
    rfl
  · rw [unchanged]
  · exact Nat.zero_add depth

theorem outcome_of_expand {depth : Nat} {nodeLimit : UInt64} {expansion : Expansion}
    (run : r.expand initial depth nodeLimit = .ok expansion) :
    r.Outcome initial depth expansion := by
  obtain ⟨same, sameRun, outcome⟩ := r.expand_outcome initial depth nodeLimit
  cases run.symm.trans sameRun
  exact outcome

/-! ### Leaves -/

theorem childless_iff (branches : 0 < r.branching.toNat) {last : Nat} {call : Nat × Nat}
    (member : call ∈ r.callsThrough last) :
    (r.outline initial).Childless (r.callsThrough last) call ↔ call.1 = last := by
  obtain ⟨within, inside⟩ := mem_callsThrough_iff.mp member
  constructor
  · intro childless
    apply Nat.le_antisymm within
    apply Nat.le_of_not_lt
    intro below
    apply childless 0 branches
    refine mem_callsThrough_iff.mpr ⟨below, ?_⟩
    exact Nat.mul_lt_mul_of_pos_right inside branches
  · rintro rfl i _ made
    exact Nat.not_succ_le_self _ (mem_callsThrough_iff.mp made).1

theorem widthAt_pos (branches : 0 < r.branching.toNat) (level : Nat) : 0 < r.widthAt level := by
  induction level with
  | zero => exact Nat.one_pos
  | succ level inductionHypothesis => exact Nat.mul_pos inductionHypothesis branches

theorem isCutShort_callsThrough_iff (branches : 0 < r.branching.toNat) {last : Nat} :
    (r.outline initial).IsCutShort (r.callsThrough last) ↔
      r.isBase (r.sizeAt initial last) = false := by
  constructor
  · rintro ⟨call, member, notBase, childless⟩
    rw [← (childless_iff branches member).mp childless]
    exact notBase
  · intro notBase
    have member : (last, 0) ∈ r.callsThrough last :=
      mem_callsThrough_iff.mpr ⟨Nat.le_refl last, widthAt_pos branches last⟩
    exact ⟨(last, 0), member, notBase, (childless_iff branches member).mpr rfl⟩

theorem endsAtBases_callsThrough (branches : 0 < r.branching.toNat) {last : Nat}
    (above : ∀ level < last, r.isBase (r.sizeAt initial level) = false) :
    (r.outline initial).EndsAtBases (r.callsThrough last) := by
  intro call member base
  rw [childless_iff branches member]
  apply Nat.le_antisymm (mem_callsThrough_iff.mp member).1
  apply Nat.le_of_not_lt
  intro below
  have notBase : (r.outline initial).isBase call = false := above call.1 below
  rw [base] at notBase
  cases notBase

end DivideConquer

end Unfolding
