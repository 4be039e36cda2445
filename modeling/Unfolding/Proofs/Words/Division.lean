import Unfolding.Proofs.Expansion.Additions
import Unfolding.Proofs.Words.Columns

/-!
Unfolding a divide-and-conquer recurrence in words.

Where the rows stand is noted in an array.  The caller of a call is found by a
division and looked for in the row above.  A row that fits under the limit is
short, so its indices and slots are words.
-/

namespace Unfolding.Words

/-- The difference of two long words, or zero. -/
def monus (left right : UInt64) : UInt64 := if right ≤ left then left - right else 0

/-- Where the calls of a row stand. -/
structure Span where
  first : UInt32
  count : UInt64

/-- The rows so far, and what is known of the last of them. -/
structure Rows where
  columns : Columns
  spans : Array Span
  size : Float
  width : UInt64

namespace Division

variable (r : DivideConquer)

/-- Add the call with an index to a row. -/
def pushCall (level : UInt32) (above : Span) (size : Float) (columns : Columns) (index : Nat) :
    Checked Columns := do
  let index := UInt64.ofNat index
  let caller ← divLong index r.branching.toUInt64
  match (narrow? caller).filter fun _ => caller < above.count with
  | none => .error (.fault (.orphan level.toNat index.toNat))
  | some caller =>
      let parent ← add above.first caller
      let (columns, _) ← columns.pushChild parent
        (DivideConquer.callId level.toNat index.toNat) size (r.isBase size)
      return columns

/-- Add all calls of the row on a level. -/
def pushRow (level : UInt32) (size : Float) (width : UInt64) (rows : Rows) : Checked Rows := do
  let above ← read rows.spans (← sub level 1).toNat
  let columns ← (List.range width.toNat).foldlM (pushCall r level above size) rows.columns
  return {
    columns := { columns with rowWidths := columns.rowWidths.push width }
    spans := rows.spans.push { first := rows.columns.len, count := width }
    size, width }

/-- The width of the next row, if the row fits under the limit. -/
def nextWidth? (limit : UInt64) (rows : Rows) : Option UInt64 :=
  (mulLong? rows.width r.branching.toUInt64).filter (· ≤ monus limit rows.columns.len.toUInt64)

/-- Add rows below the row on a level, at most `left` of them. -/
def pushRows (limit : UInt64) :
    (left : Nat) → (level : UInt32) → Rows → Checked (Columns × Option LimitStop)
  | 0, _, rows => .ok (rows.columns, none)
  | left + 1, level, rows =>
      if r.isBase rows.size then .ok (rows.columns, none)
      else do
        let next ← add level 1
        match nextWidth? r limit rows with
        | some width =>
            pushRows limit left next (← pushRow r next (rows.size / r.reduction) width rows)
        | none =>
            let last ← sub next 1
            return ({ rows.columns with isTruncated := true },
              some { emitted := rows.columns.len.toNat, level := last.toNat })

/-- The columns of the tree of a recurrence. -/
def expand (initial : Float) (depth : UInt32) (nodeLimit : UInt64) :
    Checked (Columns × Option LimitStop) := do
  let (columns, _) ← Columns.pushRoot { family := .divideConquer, rowWidths := #[1] }
    (DivideConquer.callId 0 0) initial (r.isBase initial)
  pushRows r (.ofNat (callLimit nodeLimit)) depth.toNat 0
    { columns, spans := #[{ first := 0, count := 1 }], size := initial, width := 1 }

variable {r} {above row : Row} {tree result : CallTree} {limit left index : Nat}

/-- Where a row stands, in words. -/
def spanOf (row : Row) : Span where
  first := .ofNat row.first
  count := .ofNat row.width

/-- The calls of the last row are in the tree, and a word counts them. -/
structure Stands (above : Row) (tree : CallTree) : Prop where
  linked : tree.Linked
  bounded : tree.size ≤ CallTree.capacity
  within : above.first + above.width ≤ tree.size

theorem isKept_stands (above : Row) : CallTree.IsKept (Stands above) := by
  refine ⟨?_, ?_, ?_⟩
  · intro tree result id argument isBase stands added
    have within := stands.within
    obtain ⟨empty, -⟩ := CallTree.exists_of_addRoot added
    rw [CallTree.size, empty, List.size_toArray, List.length_nil] at within
    exact ⟨.addRoot added, CallTree.size_le_of_addRoot added, by omega⟩
  · intro tree result parent id argument isBase stands added
    have within := stands.within
    have grown := CallTree.size_addChild added
    exact ⟨stands.linked.addChild added, CallTree.size_le_of_addChild added, by omega⟩
  · intro tree result stands same _
    have sized : result.size = tree.size := congrArg Array.size same
    exact ⟨stands.linked.of_calls_eq same, sized ▸ stands.bounded, sized ▸ stands.within⟩

/-- The index of a call leads to its caller. -/
theorem pushCall_ofTree (stands : Stands above tree) (shallow : row.level < UInt32.size)
    (inside : index < row.width) (short : row.width < UInt64.size)
    (widened : row.width = above.width * r.branching.toNat)
    (added : r.addCall above row tree index = .ok result) :
    pushCall r (.ofNat row.level) (spanOf above) row.size (ofTree tree) index =
      .ok (ofTree result) := by
  have within := stands.within
  have bounded := stands.bounded
  have capacity : CallTree.capacity < UInt32.size := by decide
  have widths : UInt32.size < UInt64.size := by decide
  have word : (UInt64.ofNat index).toNat = index := toNat_ofNat_long (Nat.lt_trans inside short)
  have branches : r.branching.toUInt64 ≠ 0 := by
    intro none
    have zero := congrArg UInt64.toNat none
    rw [UInt32.toNat_toUInt64] at zero
    rw [widened, zero] at inside
    exact absurd inside (Nat.not_lt_zero _)
  have quotient :
      (UInt64.ofNat index / r.branching.toUInt64).toNat = index / r.branching.toNat := by
    rw [UInt64.toNat_div, word, UInt32.toNat_toUInt64]
  unfold DivideConquer.addCall at added
  dsimp only at added
  split at added
  · rename_i caller
    have counted : UInt64.ofNat index / r.branching.toUInt64 < (spanOf above).count := by
      rw [UInt64.lt_iff_toNat_lt, quotient, spanOf, toNat_ofNat_long (by omega)]
      exact caller
    have narrowed : narrow? (UInt64.ofNat index / r.branching.toUInt64) =
        some (.ofNat (index / r.branching.toNat)) := by
      rw [narrow?, if_pos (by omega), ← quotient]
      rfl
    have parent : add (spanOf above).first (.ofNat (index / r.branching.toNat)) =
        .ok (.ofNat (above.first + index / r.branching.toNat)) := add_ofNat (by omega)
    simp [pushCall, divLong, branches, narrowed, Option.filter_some, counted, -UInt32.ofNat_add,
      parent, word, toNat_ofNat shallow, pushChild_ofTree stands.linked added]
  · cases added

theorem foldlM_pushCall_ofTree (stands : Stands above tree) (shallow : row.level < UInt32.size)
    (short : row.width < UInt64.size) (widened : row.width = above.width * r.branching.toNat)
    {indices : List Nat} (inside : ∀ index ∈ indices, index < row.width)
    (added : indices.foldlM (r.addCall above row) tree = .ok result) :
    indices.foldlM (pushCall r (.ofNat row.level) (spanOf above) row.size) (ofTree tree) =
      .ok (ofTree result) := by
  induction indices generalizing tree with
  | nil =>
      cases added
      rfl
  | cons index indices inductionHypothesis =>
      rw [List.forall_mem_cons] at inside
      obtain ⟨extended, first, rest⟩ := r.exists_of_foldlM_addCall added
      rw [List.foldlM_cons, pushCall_ofTree stands shallow inside.1 short widened first, ok_bind]
      exact inductionHypothesis (r.addCall_keeps (isKept_stands above) stands first) inside.2 rest

/-- The rows in words are those of a tree. -/
structure Matches (rows : Rows) (above : Row) (tree : CallTree) : Prop where
  columns : rows.columns = ofTree tree
  size : rows.size = above.size
  width : rows.width = .ofNat above.width
  spans : rows.spans.size = above.level + 1
  last : rows.spans[above.level]? = some (spanOf above)

theorem pushRow_ofTree {rows : Rows} (same : Matches rows above tree) (stands : Stands above tree)
    (shallow : above.level + 1 < UInt32.size)
    (short : (r.nextRow above tree).width < UInt64.size)
    (added : r.addRow above (r.nextRow above tree) tree = .ok result) :
    ∃ next, pushRow r (.ofNat (above.level + 1)) (above.size / r.reduction)
        (.ofNat (r.nextRow above tree).width) rows = .ok next ∧
      Matches next (r.nextRow above tree) result ∧ Stands (r.nextRow above tree) result := by
  unfold DivideConquer.addRow at added
  split at added
  · cases added
  · rename_i extended rowAdded
    cases added
    have back : sub (.ofNat (above.level + 1)) 1 = .ok (.ofNat above.level) :=
      sub_ofNat shallow (Nat.le_add_left 1 above.level)
    have found : read rows.spans above.level = .ok (spanOf above) := read_eq_ok same.last
    have pushed := foldlM_pushCall_ofTree stands shallow short rfl
      (fun index => List.mem_range.mp) rowAdded
    have kept := r.foldlM_addCall_keeps (isKept_stands above) stands rowAdded
    have sized := r.size_of_foldlM_addCall rowAdded
    rw [List.length_range] at sized
    refine ⟨_, by
      simp only [pushRow, back, ok_bind, toNat_ofNat (Nat.lt_of_succ_lt shallow), found,
        toNat_ofNat_long short, same.columns]
      exact congrArg (· >>= _) pushed, ?_, ?_⟩
    · constructor
      case columns =>
        exact congrArg (fun rowWidths => { ofTree extended with rowWidths }) Array.map_push.symm
      case last =>
        have newest : above.level + 1 = rows.spans.size := same.spans.symm
        simp [DivideConquer.nextRow, spanOf, newest, ofTree]
      all_goals simp [DivideConquer.nextRow, same.spans]
    · exact ⟨kept.linked.of_calls_eq rfl, kept.bounded, Nat.le_of_eq sized.symm⟩

/-- Whether the next row fits is decided alike. -/
theorem nextWidth?_ofTree {rows : Rows} (same : Matches rows above tree)
    (stands : Stands above tree) (limited : limit ≤ CallTree.capacity) :
    nextWidth? r (.ofNat limit) rows =
      if (r.nextRow above tree).width ≤ limit - tree.size then
        some (.ofNat (r.nextRow above tree).width)
      else none := by
  have within := stands.within
  have bounded := stands.bounded
  have capacity : CallTree.capacity < UInt32.size := by decide
  have widths : UInt32.size < UInt64.size := by decide
  have len := toNat_len bounded
  have most : (UInt64.ofNat limit).toNat = limit := toNat_ofNat_long (by omega)
  have room : (monus (.ofNat limit) (ofTree tree).len.toUInt64).toNat = limit - tree.size := by
    rw [monus]
    split
    · rename_i ordered
      rw [UInt64.toNat_sub_of_le _ _ ordered, UInt32.toNat_toUInt64, len, most]
    · rename_i crowded
      rw [UInt64.le_iff_toNat_le, UInt32.toNat_toUInt64, len, most] at crowded
      exact (Nat.sub_eq_zero_of_le (Nat.le_of_not_le crowded)).symm
  have short : above.width * r.branching.toNat < UInt64.size := by
    calc above.width * r.branching.toNat
        ≤ CallTree.capacity * CallTree.capacity :=
          Nat.mul_le_mul (by omega) (Nat.le_of_lt_succ r.branching.toNat_lt)
      _ < UInt64.size := by decide
  have width : (UInt64.ofNat above.width).toNat = above.width := toNat_ofNat_long (by omega)
  have product : UInt64.ofNat above.width * r.branching.toUInt64 =
      .ofNat (above.width * r.branching.toNat) := by
    simp
  rw [nextWidth?, same.width, same.columns, mulLong?, width, UInt32.toNat_toUInt64, if_pos short,
    product, Option.filter_some]
  refine if_congr ?_ rfl rfl
  rw [decide_eq_true_eq, UInt64.le_iff_toNat_le, room, toNat_ofNat_long short]
  rfl

/-- The rows are added to the columns as they are to the tree. -/
theorem pushRows_ofTree {rows : Rows} {expansion : Expansion} (same : Matches rows above tree)
    (stands : Stands above tree) (limited : limit ≤ CallTree.capacity)
    (shallow : above.level + left < UInt32.size)
    (added : r.addRows limit left above tree = .ok expansion) :
    pushRows r (.ofNat limit) left (.ofNat above.level) rows =
      .ok (ofTree expansion.tree, expansion.stop) := by
  induction left generalizing above tree rows with
  | zero =>
      cases added
      rw [pushRows, same.columns]
  | succ left inductionHypothesis =>
      have bounded := stands.bounded
      have next : add (.ofNat above.level) 1 = .ok (.ofNat (above.level + 1)) := add_one (by omega)
      unfold DivideConquer.addRows at added
      rw [pushRows, next, same.size, nextWidth?_ofTree same stands limited]
      by_cases base : r.isBase above.size
      · rw [if_pos base] at added ⊢
        cases added
        rw [same.columns]
      · rw [if_neg base] at added ⊢
        rw [ok_bind]
        dsimp only at added
        by_cases fits : (r.nextRow above tree).width ≤ limit - tree.size
        · rw [if_pos fits] at added ⊢
          cases rowAdded : r.addRow above (r.nextRow above tree) tree with
          | error fault =>
              rw [rowAdded] at added
              cases added
          | ok extended =>
              rw [rowAdded] at added
              have short : (r.nextRow above tree).width < UInt64.size :=
                Nat.lt_of_le_of_lt (by omega) (show CallTree.capacity < UInt64.size by decide)
              obtain ⟨more, pushed, sameMore, standsMore⟩ :=
                pushRow_ofTree same stands (by omega) short rowAdded
              simp only [pushed, ok_bind]
              exact inductionHypothesis sameMore standsMore
                (by simp only [DivideConquer.nextRow]; omega) added
        · rw [if_neg fits] at added ⊢
          cases added
          have last : sub (.ofNat (above.level + 1)) 1 = .ok (.ofNat above.level) :=
            sub_ofNat (by omega) (Nat.le_add_left 1 above.level)
          have len := toNat_len bounded
          simp only [last, ok_bind, pure_eq_ok, same.columns, Expansion.stopped, ofTree_truncated,
            len, toNat_ofNat (show above.level < UInt32.size by omega)]

/-- The columns of a recurrence are those of its tree. -/
theorem expand_ofTree {initial : Float} {depth : UInt32} {nodeLimit : UInt64}
    {expansion : Expansion}
    (run : r.expand initial depth.toNat nodeLimit = .ok expansion) :
    expand r initial depth nodeLimit = .ok (ofTree expansion.tree, expansion.stop) := by
  unfold DivideConquer.expand at run
  dsimp only at run
  split at run
  · cases run
  · rename_i rooted added
    obtain ⟨-, single⟩ := CallTree.exists_of_addRoot added
    have sized : rooted.size = 1 := by rw [CallTree.size, single]; rfl
    have pushed : Columns.pushRoot { family := .divideConquer, rowWidths := #[1] }
        (DivideConquer.callId 0 0) initial (r.isBase initial) = .ok (ofTree rooted, 0) := by
      simpa [ofTree_empty] using pushRoot_ofTree added
    have stands : Stands { level := 0, first := 0, width := 1, size := initial } rooted :=
      ⟨.addRoot added, CallTree.size_le_of_addRoot added, by simp [sized]⟩
    rw [expand, pushed, ok_bind]
    refine pushRows_ofTree ⟨rfl, rfl, rfl, rfl, rfl⟩ stands (Nat.min_le_right _ _) ?_ run
    simpa using depth.toNat_lt

end Division

end Unfolding.Words
