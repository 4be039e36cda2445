import Unfolding.Proofs.Expansion.Rows
import Unfolding.Proofs.Words.Placement
import Unfolding.Proofs.Words.Repetition

/-!
Drawings of columns.

Every entry of a column is fetched by a slot that is in use, and there is a position
for each slot.
-/

namespace Unfolding.Words

namespace Columns

variable (columns : Columns)

/-- The position of the call in a slot with a cross coordinate. -/
def position (orientation : Orientation) (style : Style) (place : Nat × Float) : Checked Point := do
  let level ← columns.fetch columns.level (.ofNat place.1)
  return Placement.position orientation style level.toNat place.2

/-- The positions of all calls. -/
def positions (orientation : Orientation) (style : Style) : Checked (Array Point) := do
  let cross ← columns.slots columns.family.placement
  let points ← ((List.range columns.len.toNat).zip cross.toList).mapM
    (columns.position orientation style)
  return points.toArray

/-- The node of the call in a slot. -/
def node (orientation : Orientation) (positions : Array Point) (slot : Nat) : Checked Node := do
  let id ← columns.fetch columns.ids (.ofNat slot)
  let value ← columns.fetch columns.argument (.ofNat slot)
  let level ← columns.fetch columns.level (.ofNat slot)
  let isBase ← columns.fetch columns.isBase (.ofNat slot)
  let repeats ← columns.fetch columns.repeats (.ofNat slot)
  let position ← read positions slot
  return {
    id
    label := label value
    family := columns.family
    value
    level := level.toNat
    rowWidth := (columns.rowWidths.getD level.toNat 0).toNat
    isBase
    repeats := repeats.map UInt32.toNat
    sourceSide := orientation.sourceSide
    targetSide := orientation.targetSide
    position }

/-- The edge that ends at the call in a slot. -/
def edge? (style : Style) (slot : Nat) : Checked (Option Edge) := do
  match ← columns.caller (.ofNat slot) with
  | none => return none
  | some parent =>
      let source ← columns.fetch columns.ids parent
      let target ← columns.fetch columns.ids (.ofNat slot)
      let repeats ← columns.fetch columns.repeats (.ofNat slot)
      return some {
        id := "e-" ++ toString slot
        source
        target
        strokeWidth := style.edgeStrokeWidth
        isDashed := repeats.isSome }

def metadata (marks : Option Marks) (growth : Option Growth) (effectiveDepth : UInt32) :
    Checked Metadata := do
  let count ← columns.levelCount
  let tallies ← columns.levels
  return {
    totalNodes := columns.len.toNat
    totalLevels := count.toNat
    nodesPerLevel := tallies.toList.map fun tally => tally.calls.toNat
    repeatedArguments := marks.map fun marks => marks.groups.toNat
    growth
    family := columns.family
    effectiveDepth := effectiveDepth.toNat
    isTruncated := columns.isTruncated }

/-- The drawing of columns with a position for each slot. -/
def assemble (positions : Array Point) (orientation : Orientation) (style : Style)
    (marks : Option Marks) (growth : Option Growth) (effectiveDepth : UInt32) :
    Checked Drawing := do
  if positions.size = columns.len.toNat then
    let slots := List.range columns.len.toNat
    let nodes ← slots.mapM (columns.node orientation positions)
    let edges ← slots.mapM (columns.edge? style)
    let metadata ← columns.metadata marks growth effectiveDepth
    return { nodes := nodes.toArray, edges := edges.reduceOption.toArray, metadata }
  else .error (.fault (.misuse (.positionCount positions.size columns.len.toNat)))

/-- Place the calls and draw them. -/
def draw (orientation : Orientation) (style : Style) (marks : Option Marks)
    (growth : Option Growth) (effectiveDepth : UInt32) : Checked Drawing := do
  let positions ← columns.positions orientation style
  columns.assemble positions orientation style marks growth effectiveDepth

end Columns

/-- A tree of which all numbers are words. -/
structure Counted (tree : CallTree) : Prop where
  linked : tree.Linked
  bounded : tree.size ≤ CallTree.capacity
  rows : tree.RowsCounted
  repeats : ∀ call ∈ tree.calls, ∀ count ∈ call.repeats, count ≤ tree.size

variable {tree : CallTree} {slot : Nat} {call : Call} {orientation : Orientation} {style : Style}

theorem Counted.toNat_level (counted : Counted tree) (found : tree.calls[slot]? = some call) :
    (UInt32.ofNat call.level).toNat = call.level := by
  have shallow := level_lt_capacity counted.linked counted.bounded
    (Array.mem_def.mp (Array.mem_of_getElem? found))
  exact toNat_ofNat (Nat.lt_trans shallow (by decide))

theorem positions_ofTree (counted : Counted tree) :
    (ofTree tree).positions orientation style =
      .ok (tree.family.placement.positions tree orientation style) := by
  have bounded := counted.bounded
  have len := toNat_len bounded
  let cross : Array Float := tree.family.placement.slots tree
  have slots : (ofTree tree).slots (ofTree tree).family.placement = .ok cross :=
    slots_ofTree counted.linked bounded tree.family.placement
  have placed : ∀ place ∈ (List.range tree.size).zip cross.toList,
      (ofTree tree).position orientation style place =
        .ok (Placement.position orientation style ((tree.level? place.1).getD 0) place.2) := by
    rintro ⟨slot, coordinate⟩ member
    obtain ⟨call, found⟩ := CallTree.lt_size_iff.mp (List.mem_range.mp (List.of_mem_zip member).1)
    have level : (ofTree tree).fetch (ofTree tree).level (.ofNat slot) = .ok (.ofNat call.level) :=
      fetch_ofTree bounded found
    simp [Columns.position, level, counted.toNat_level found, CallTree.level?, found]
  have points : (((List.range tree.size).zip cross.toList).map fun place =>
      Placement.position orientation style ((tree.level? place.1).getD 0) place.2).toArray =
        tree.family.placement.positions tree orientation style := by
    apply Array.ext_getElem?
    intro slot
    change _ = (Array.zipWith _ tree.calls cross)[slot]?
    rw [Array.getElem?_zipWith, List.getElem?_toArray, List.getElem?_map, List.zip,
      List.getElem?_zipWith]
    by_cases inside : slot < tree.size
    · obtain ⟨call, found⟩ := CallTree.lt_size_iff.mp inside
      rw [List.getElem?_range inside, found, Array.getElem?_toList]
      cases cross[slot]? <;> simp [CallTree.level?, found]
    · have outside : tree.calls[slot]? = none := Array.getElem?_eq_none (Nat.le_of_not_lt inside)
      simp [outside, inside]
  rw [Columns.positions, slots, ok_bind, len, mapM_eq_ok placed, ok_bind, points]
  rfl

theorem node_ofTree (counted : Counted tree) (found : tree.calls[slot]? = some call)
    {positions : Array Point} {position : Point} (placed : positions[slot]? = some position) :
    (ofTree tree).node orientation positions slot =
      .ok (Drawing.node tree orientation call position) := by
  have bounded := counted.bounded
  have id : (ofTree tree).fetch (ofTree tree).ids (.ofNat slot) = .ok call.id :=
    fetch_ofTree bounded found
  have value : (ofTree tree).fetch (ofTree tree).argument (.ofNat slot) = .ok call.argument :=
    fetch_ofTree bounded found
  have level : (ofTree tree).fetch (ofTree tree).level (.ofNat slot) = .ok (.ofNat call.level) :=
    fetch_ofTree bounded found
  have isBase : (ofTree tree).fetch (ofTree tree).isBase (.ofNat slot) = .ok call.isBase :=
    fetch_ofTree bounded found
  have repeats : (ofTree tree).fetch (ofTree tree).repeats (.ofNat slot) =
      .ok (call.repeats.map UInt32.ofNat) := fetch_ofTree bounded found
  have rowWidth : ((ofTree tree).rowWidths.getD call.level 0).toNat = tree.rowWidth call.level := by
    have few : tree.rowWidth call.level < UInt64.size := by
      rw [counted.rows]
      exact Nat.lt_of_le_of_lt (Nat.le_trans (tree.callsOn_le _) bounded) (by decide)
    have word : (ofTree tree).rowWidths.getD call.level 0 = .ofNat (tree.rowWidth call.level) := by
      simp only [ofTree, CallTree.rowWidth, Array.getD_eq_getD_getElem?, Array.getElem?_map]
      cases tree.rowWidths[call.level]? <;> rfl
    rw [word, toNat_ofNat_long few]
  have count : (call.repeats.map UInt32.ofNat).map UInt32.toNat = call.repeats := by
    cases noted : call.repeats with
    | none => rfl
    | some count =>
        have few := counted.repeats call (Array.mem_of_getElem? found) count noted
        rw [Option.map_some, Option.map_some, toNat_slot bounded few]
  simp only [Columns.node, id, value, level, isBase, repeats, read_eq_ok placed, ok_bind,
    counted.toNat_level found, rowWidth, count, pure_eq_ok]
  rfl

theorem edge?_ofTree (counted : Counted tree) (found : tree.calls[slot]? = some call) :
    (ofTree tree).edge? style slot = .ok (Drawing.edge? tree style call slot) := by
  have bounded := counted.bounded
  have inside : slot < tree.size := CallTree.lt_size_iff.mpr ⟨call, found⟩
  have made : tree.parent? slot = call.parent := by rw [CallTree.parent?, found, Option.bind_some]
  have target : (ofTree tree).fetch (ofTree tree).ids (.ofNat slot) = .ok call.id :=
    fetch_ofTree bounded found
  have repeats : (ofTree tree).fetch (ofTree tree).repeats (.ofNat slot) =
      .ok (call.repeats.map UInt32.ofNat) := fetch_ofTree bounded found
  simp only [Columns.edge?, caller_ofTree counted.linked bounded inside, made, Drawing.edge?,
    ok_bind]
  cases above : call.parent with
  | none => rfl
  | some parent =>
      have earlier := (counted.linked.caller (made.trans above)).1
      obtain ⟨caller, callerFound⟩ := CallTree.lt_size_iff.mp (Nat.lt_trans earlier inside)
      have source : (ofTree tree).fetch (ofTree tree).ids (.ofNat parent) = .ok caller.id :=
        fetch_ofTree bounded callerFound
      simp [source, target, repeats, callerFound]

theorem metadata_ofTree (counted : Counted tree) {findings : Findings} {marks : Option Marks}
    {depth : UInt32} (noted : marks.map (fun marks => marks.groups.toNat) =
      findings.repetition.map Repetition.groups)
    (deep : depth.toNat = findings.effectiveDepth) :
    (ofTree tree).metadata marks findings.growth depth =
      .ok (Drawing.metadataOf tree findings) := by
  have bounded := counted.bounded
  have len := toNat_len bounded
  have count : (UInt32.ofNat tree.levelCount).toNat = tree.levelCount :=
    toNat_slot bounded counted.linked.levelCount_le
  have calls : (tree.levels.map Tally.ofCount).toList.map (fun tally => tally.calls.toNat) =
      (tree.levels.map LevelCount.calls).toList := by
    rw [Array.toList_map, Array.toList_map, List.map_map, CallTree.toList_levels, List.map_map,
      List.map_map]
    apply List.map_congr_left
    intro level _
    exact toNat_slot bounded (tree.callsOn_le level)
  simp only [Columns.metadata, levelCount_ofTree counted.linked bounded,
    levels_ofTree counted.linked bounded, ok_bind, len, count, calls, noted, deep, pure_eq_ok]
  rfl

theorem nodes_ofTree (counted : Counted tree) {positions : Array Point}
    (sized : positions.size = tree.size) :
    (List.range tree.size).mapM ((ofTree tree).node orientation positions) =
      .ok (Array.zipWith (Drawing.node tree orientation) tree.calls positions).toList := by
  apply mapM_range_eq_ok
  · rw [Array.size_zipWith, sized]
    exact Nat.min_self _
  · intro slot node placed
    rw [Array.getElem?_zipWith] at placed
    split at placed
    · rename_i call position found positioned
      cases placed
      exact node_ofTree counted found positioned
    · cases placed

/-- The edges are those of the slots that have one. -/
theorem edges_ofTree (counted : Counted tree) (style : Style) :
    ∃ edges, (List.range tree.size).mapM ((ofTree tree).edge? style) = .ok edges ∧
      edges.reduceOption.toArray = Drawing.edgesOf tree style := by
  refine ⟨(tree.calls.zipIdx.map fun entry => Drawing.edge? tree style entry.1 entry.2).toList,
    ?_, ?_⟩
  · apply mapM_range_eq_ok
    · rw [Array.size_map, Array.size_zipIdx]
      rfl
    · intro slot edge drawn
      rw [Array.getElem?_map, Array.getElem?_zipIdx] at drawn
      obtain ⟨entry, found, rfl⟩ := Option.map_eq_some_iff.mp drawn
      obtain ⟨call, callFound, rfl⟩ := Option.map_eq_some_iff.mp found
      rw [Nat.zero_add]
      exact edge?_ofTree counted callFound
  · apply Array.toList_inj.mp
    rw [Drawing.edgesOf, Array.toList_filterMap, Array.toList_map, List.reduceOption,
      List.filterMap_map]
    rfl

theorem assemble_ofTree (counted : Counted tree) {findings : Findings} {marks : Option Marks}
    {depth : UInt32} (noted : marks.map (fun marks => marks.groups.toNat) =
      findings.repetition.map Repetition.groups)
    (deep : depth.toNat = findings.effectiveDepth) {positions : Array Point}
    (sized : positions.size = tree.size) :
    (ofTree tree).assemble positions orientation style marks findings.growth depth =
      (Drawing.ofPositions tree positions orientation style findings).mapError .fault := by
  have len := toNat_len counted.bounded
  obtain ⟨edges, drawn, reduced⟩ := edges_ofTree counted style
  simp only [Columns.assemble, len, if_pos sized, nodes_ofTree counted sized, drawn, ok_bind,
    Drawing.ofPositions, metadata_ofTree counted noted deep, reduced]
  rfl

/-- Columns are drawn as their tree is. -/
theorem draw_ofTree (orientation : Orientation) (style : Style) {unfolded : Unfolded}
    (counted : Counted unfolded.tree) {marks : Option Marks} {depth : UInt32}
    (noted : marks.map (fun marks => marks.groups.toNat) =
      unfolded.repetition.map Repetition.groups)
    (deep : depth.toNat = unfolded.budget.effective) :
    (ofTree unfolded.tree).draw orientation style marks unfolded.growth depth =
      (unfolded.draw orientation style).mapError .fault := by
  rw [Columns.draw, positions_ofTree counted, ok_bind]
  have findings : depth.toNat = unfolded.findings.effectiveDepth := deep
  exact assemble_ofTree counted noted findings (CallTree.size_positions ..)

end Unfolding.Words
