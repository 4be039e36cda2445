import Unfolding.Proofs.CallTree.Repetition
import Unfolding.Proofs.Words.Columns

/-!
Repeated arguments, noted in columns of words.

The slots of the calls are grouped by the keys of their arguments.  Each group with
more than one call is counted, and its count is written to all its slots.
-/

namespace Unfolding

namespace Words

/-- The number of members of a group; the largest word stands for all larger numbers. -/
def memberCount (members : Array UInt32) : UInt32 := .ofNat (min members.size (UInt32.size - 1))

/-- The column of repetitions, the number of groups noted in it, and the number of
their members. -/
structure Marks where
  repeats : Array (Option UInt32)
  groups : UInt32 := 0
  annotated : UInt32 := 0

namespace Columns

/-- Put a call into the group of its argument. -/
def group (columns : Columns) (groups : Std.TreeMap UInt64 (Array UInt32)) (slot : Nat) :
    Checked (Std.TreeMap UInt64 (Array UInt32)) := do
  let key := argumentKey (← columns.fetch columns.argument (.ofNat slot))
  return groups.insert key ((groups.getD key #[]).push (.ofNat slot))

/-- Note on all members of a group how many they are, if more than one. -/
def markMembers (marks : Marks) (members : Array UInt32) : Checked Marks := do
  if 1 < members.size then
    let count := memberCount members
    let repeats ← members.toList.foldlM
      (fun repeats slot => write repeats slot.toNat (some count)) marks.repeats
    let groups ← add marks.groups 1
    let annotated ← add marks.annotated count
    return { repeats, groups, annotated }
  else return marks

/-- Note the repetitions on all calls and sum them up. -/
def markRepeats (columns : Columns) : Checked (Columns × Marks) := do
  let groups ← (List.range columns.len.toNat).foldlM columns.group ∅
  let marks ← (groups.toList.map Prod.snd).foldlM markMembers { repeats := columns.repeats }
  return ({ columns with repeats := marks.repeats }, marks)

end Columns

end Words

/-! ### Groups -/

namespace CallTree

variable (tree : CallTree)

/-- The key of the argument of the call in a slot. -/
def keyAt (slot : Nat) : UInt64 := tree.argumentKeys.getD slot 0

/-- The slots of the calls with a key. -/
def slotsWith (key : UInt64) : List Nat := (List.range tree.size).filter (tree.keyAt · = key)

theorem length_argumentKeys : tree.argumentKeys.length = tree.size := by
  simp [argumentKeys, size]

theorem argumentKeys_eq_map : tree.argumentKeys = (List.range tree.size).map tree.keyAt := by
  apply List.ext_getElem?
  intro slot
  by_cases inside : slot < tree.size
  · simp [keyAt, inside, length_argumentKeys]
  · simp [inside, length_argumentKeys]

theorem length_slotsWith (key : UInt64) :
    (tree.slotsWith key).length = tree.argumentKeys.count key := by
  rw [slotsWith, argumentKeys_eq_map, List.count, List.countP_map, List.countP_eq_length_filter]
  congr

variable {tree}

theorem mem_slotsWith_iff {slot : Nat} {call : Call} (found : tree.calls[slot]? = some call)
    (key : UInt64) :
    slot ∈ tree.slotsWith key ↔ argumentKey call.argument = key := by
  have inside : slot < tree.size := lt_size_iff.mpr ⟨call, found⟩
  have keyed : tree.keyAt slot = argumentKey call.argument := by simp [keyAt, argumentKeys, found]
  simp [slotsWith, inside, keyed]

theorem lt_size_of_mem_slotsWith {slot : Nat} {key : UInt64} (member : slot ∈ tree.slotsWith key) :
    slot < tree.size :=
  List.mem_range.mp (List.mem_filter.mp member).1

end CallTree

namespace Words

variable {tree : CallTree}

/-- The groups of the calls in front of a slot. -/
def groupsBefore (tree : CallTree) (slot : Nat) : Std.TreeMap UInt64 (Array UInt32) :=
  (List.range slot).foldl
    (fun groups slot => groups.insert (tree.keyAt slot)
      ((groups.getD (tree.keyAt slot) #[]).push (.ofNat slot)))
    ∅

theorem group_ofTree (bounded : tree.size ≤ CallTree.capacity) {slot : Nat}
    (inside : slot < tree.size) :
    (ofTree tree).group (groupsBefore tree slot) slot = .ok (groupsBefore tree (slot + 1)) := by
  obtain ⟨call, found⟩ := CallTree.lt_size_iff.mp inside
  have keyed : tree.keyAt slot = argumentKey call.argument := by
    simp [CallTree.keyAt, CallTree.argumentKeys, found]
  have argument : (ofTree tree).fetch (ofTree tree).argument (.ofNat slot) = .ok call.argument :=
    fetch_ofTree bounded found
  simp [Columns.group, argument, groupsBefore, List.range_succ, keyed]

theorem getElem?_groupsBefore (tree : CallTree) (slot : Nat) (key : UInt64) :
    (groupsBefore tree slot)[key]? =
      if key ∈ (List.range slot).map tree.keyAt then
        some (((List.range slot).filter (tree.keyAt · = key)).map UInt32.ofNat).toArray
      else none := by
  induction slot with
  | zero => simp [groupsBefore]
  | succ slot inductionHypothesis =>
      have next : groupsBefore tree (slot + 1) = (groupsBefore tree slot).insert (tree.keyAt slot)
          (((groupsBefore tree slot).getD (tree.keyAt slot) #[]).push (.ofNat slot)) := by
        simp [groupsBefore, List.range_succ]
      rw [next, Std.TreeMap.getElem?_insert, Std.TreeMap.getD_eq_getD_getElem?]
      by_cases here : tree.keyAt slot = key
      · subst here
        have before : (groupsBefore tree slot)[tree.keyAt slot]?.getD #[] =
            (((List.range slot).filter (tree.keyAt · = tree.keyAt slot)).map
              UInt32.ofNat).toArray := by
          rw [inductionHypothesis]
          split
          · rfl
          · rename_i absent
            have none : (List.range slot).filter (tree.keyAt · = tree.keyAt slot) = [] := by
              simpa [List.filter_eq_nil_iff] using absent
            simp [none]
        simp [before, List.range_succ]
      · simp [here, inductionHypothesis, List.range_succ, Ne.symm here]

theorem foldlM_group_ofTree (bounded : tree.size ≤ CallTree.capacity) :
    (List.range tree.size).foldlM (ofTree tree).group ∅ = .ok (groupsBefore tree tree.size) :=
  foldlM_range_eq_ok (groupsBefore tree) fun _ => group_ofTree bounded

/-- The members of the group of a key. -/
def membersWith (tree : CallTree) (key : UInt64) : Array UInt32 :=
  ((tree.slotsWith key).map UInt32.ofNat).toArray

theorem getElem?_groups (tree : CallTree) (key : UInt64) :
    (groupsBefore tree tree.size)[key]? =
      if key ∈ tree.argumentKeys then some (membersWith tree key) else none := by
  rw [getElem?_groupsBefore, ← tree.argumentKeys_eq_map]
  rfl

/-! ### Marks -/

/-- Writing one value to many slots. -/
theorem foldlM_write {α : Type} {items : Array α} {slots : List Nat} (value : α)
    (inside : ∀ slot ∈ slots, slot < items.size ∧ slot < UInt32.size) :
    ∃ result, (slots.map UInt32.ofNat).foldlM
        (fun items slot => write items slot.toNat value) items = .ok result ∧
      ∀ slot, result[slot]? = if slot ∈ slots then some value else items[slot]? := by
  induction slots generalizing items with
  | nil => exact ⟨items, rfl, fun slot => by simp⟩
  | cons first slots inductionHypothesis =>
      rw [List.forall_mem_cons] at inside
      have others : ∀ slot ∈ slots,
          slot < (items.setIfInBounds first value).size ∧ slot < UInt32.size := by
        simpa using inside.2
      obtain ⟨result, written, entries⟩ := inductionHypothesis others
      refine ⟨result, ?_, ?_⟩
      · rw [List.map_cons, List.foldlM_cons, toNat_ofNat inside.1.2, write_eq_ok inside.1.1]
        exact written
      · intro slot
        rw [entries, Array.getElem?_setIfInBounds]
        by_cases here : first = slot
        · subst here
          simp [inside.1.1]
        · simp [here, Ne.symm here]

/-- The keys with more than one call. -/
def repeatedAmong (tree : CallTree) (keys : List UInt64) : List UInt64 :=
  keys.filter fun key => 1 < tree.argumentKeys.count key

/-- The number of calls with a repeated key. -/
def callsAmong (tree : CallTree) (keys : List UInt64) : Nat :=
  ((repeatedAmong tree keys).map tree.argumentKeys.count).sum

theorem callsAmong_append (tree : CallTree) (keys others : List UInt64) :
    callsAmong tree (keys ++ others) = callsAmong tree keys + callsAmong tree others := by
  simp [callsAmong, repeatedAmong]

/-- The marks once the groups of some keys are noted. -/
def marksAfter (tree : CallTree) (keys : List UInt64) : Marks where
  repeats := tree.calls.map fun call =>
    let key := argumentKey call.argument
    if key ∈ keys ∧ 1 < tree.argumentKeys.count key then some (.ofNat (tree.argumentKeys.count key))
    else call.repeats.map UInt32.ofNat
  groups := .ofNat (repeatedAmong tree keys).length
  annotated := .ofNat (callsAmong tree keys)

theorem size_membersWith (tree : CallTree) (key : UInt64) :
    (membersWith tree key).size = tree.argumentKeys.count key := by
  simp [membersWith, CallTree.length_slotsWith]

theorem marksAfter_unrepeated {keys : List UInt64} {key : UInt64}
    (single : ¬ 1 < tree.argumentKeys.count key) :
    marksAfter tree (keys ++ [key]) = marksAfter tree keys := by
  have unmarked (other : UInt64) : (other ∈ keys ++ [key] ∧ 1 < tree.argumentKeys.count other) ↔
      other ∈ keys ∧ 1 < tree.argumentKeys.count other := by
    by_cases same : other = key
    · simp [same, single]
    · simp [same]
  have same : repeatedAmong tree (keys ++ [key]) = repeatedAmong tree keys := by
    simp [repeatedAmong, single]
  simp only [marksAfter, unmarked, callsAmong, same]

/-- Noting a group writes to the slots of its members. -/
theorem foldlM_write_membersWith (bounded : tree.size ≤ CallTree.capacity) {keys : List UInt64}
    {key : UInt64} (repeated : 1 < tree.argumentKeys.count key) :
    (membersWith tree key).toList.foldlM
        (fun repeats slot => write repeats slot.toNat (some (.ofNat (tree.argumentKeys.count key))))
        (marksAfter tree keys).repeats =
      .ok (marksAfter tree (keys ++ [key])).repeats := by
  have inside : ∀ slot ∈ tree.slotsWith key,
      slot < (marksAfter tree keys).repeats.size ∧ slot < UInt32.size := by
    intro slot member
    have inside := CallTree.lt_size_of_mem_slotsWith member
    exact ⟨by simpa [marksAfter, CallTree.size] using inside,
      Nat.lt_trans (Nat.lt_of_lt_of_le inside bounded) (by decide)⟩
  obtain ⟨result, written, entries⟩ := foldlM_write
    (some (UInt32.ofNat (tree.argumentKeys.count key))) inside
  have same : result = (marksAfter tree (keys ++ [key])).repeats := by
    apply Array.ext_getElem?
    intro slot
    rw [entries]
    cases found : tree.calls[slot]? with
    | none =>
        have outside : slot ∉ tree.slotsWith key := by
          intro member
          obtain ⟨call, present⟩ :=
            CallTree.lt_size_iff.mp (CallTree.lt_size_of_mem_slotsWith member)
          rw [found] at present
          cases present
        simp [marksAfter, found, outside]
    | some call =>
        have member := CallTree.mem_slotsWith_iff found key
        by_cases here : argumentKey call.argument = key
        · simp [marksAfter, found, member, here, repeated]
        · simp [marksAfter, found, member, here]
  rw [← same, membersWith]
  exact written

theorem markMembers_ofTree (bounded : tree.size ≤ CallTree.capacity) {keys : List UInt64}
    {key : UInt64} (groups : (keys ++ [key]).length < UInt32.size)
    (annotated : callsAmong tree (keys ++ [key]) < UInt32.size) :
    Columns.markMembers (marksAfter tree keys) (membersWith tree key) =
      .ok (marksAfter tree (keys ++ [key])) := by
  rw [Columns.markMembers, size_membersWith]
  by_cases repeated : 1 < tree.argumentKeys.count key
  · have counted : memberCount (membersWith tree key) = .ofNat (tree.argumentKeys.count key) := by
      have few : tree.argumentKeys.count key ≤ CallTree.capacity :=
        Nat.le_trans (tree.length_argumentKeys ▸ List.count_le_length) bounded
      rw [memberCount, size_membersWith]
      exact congrArg UInt32.ofNat (Nat.min_eq_left few)
    have noted : repeatedAmong tree (keys ++ [key]) = repeatedAmong tree keys ++ [key] := by
      simp [repeatedAmong, repeated]
    have calls : callsAmong tree (keys ++ [key]) =
        callsAmong tree keys + tree.argumentKeys.count key := by
      simp [callsAmong, noted]
    have fewer : (repeatedAmong tree keys).length + 1 < UInt32.size := by
      rw [List.length_append] at groups
      exact Nat.lt_of_le_of_lt (Nat.succ_le_succ (List.length_filter_le _ keys)) groups
    rw [if_pos repeated, counted]
    simp only [foldlM_write_membersWith bounded repeated, ok_bind]
    simp [marksAfter, noted, calls, add_one fewer, add_ofNat (calls ▸ annotated)]
  · rw [if_neg repeated, marksAfter_unrepeated repeated]
    rfl

/-- The groups are noted one after the other. -/
theorem foldlM_markMembers (bounded : tree.size ≤ CallTree.capacity) {noted left : List UInt64}
    (groups : (noted ++ left).length < UInt32.size)
    (annotated : callsAmong tree (noted ++ left) < UInt32.size) :
    (left.map (membersWith tree)).foldlM Columns.markMembers (marksAfter tree noted) =
      .ok (marksAfter tree (noted ++ left)) := by
  induction left generalizing noted with
  | nil => simp
  | cons key left inductionHypothesis =>
      rw [List.append_cons] at groups annotated ⊢
      have groupsSoFar : (noted ++ [key]).length < UInt32.size := by
        rw [List.length_append] at groups
        omega
      have annotatedSoFar : callsAmong tree (noted ++ [key]) < UInt32.size := by
        rw [callsAmong_append] at annotated
        omega
      rw [List.map_cons, List.foldlM_cons, markMembers_ofTree bounded groupsSoFar annotatedSoFar,
        ok_bind]
      exact inductionHypothesis groups annotated

/-- The keys of the groups, in the order in which they are noted. -/
def groupKeys (tree : CallTree) : List UInt64 := (groupsBefore tree tree.size).toList.map Prod.fst

theorem groupKeys_perm (tree : CallTree) : (groupKeys tree).Perm tree.argumentKeys.dedup := by
  have entries := CallTree.toList_perm_of_getElem? (getElem?_groups tree)
  have keys := entries.map Prod.fst
  rw [List.map_map] at keys
  simpa [groupKeys, Function.comp_def] using keys

theorem map_snd_groups (tree : CallTree) :
    (groupsBefore tree tree.size).toList.map Prod.snd =
      (groupKeys tree).map (membersWith tree) := by
  rw [groupKeys, List.map_map]
  apply List.map_congr_left
  rintro ⟨key, members⟩ member
  rw [Std.TreeMap.mem_toList_iff_getElem?_eq_some, getElem?_groups] at member
  split at member
  · exact (Option.some.inj member).symm
  · cases member

theorem callsAmong_groupKeys (tree : CallTree) :
    callsAmong tree (groupKeys tree) = tree.markRepeats.2.annotated := by
  have counts := ((groupKeys_perm tree).filter
    fun key => decide (1 < tree.argumentKeys.count key)).map tree.argumentKeys.count
  calc
    callsAmong tree (groupKeys tree) = ((tree.argumentKeys.dedup.filter
        fun key => 1 < tree.argumentKeys.count key).map tree.argumentKeys.count).sum :=
      counts.sum_eq
    _ = ((tree.argumentCounts.toList.map Prod.snd).filter (1 < ·)).sum :=
      tree.filter_counts_perm.sum_eq.symm
    _ = tree.markRepeats.2.annotated := List.sum_eq_foldl

theorem callsAmong_groupKeys_le (tree : CallTree) :
    callsAmong tree (groupKeys tree) ≤ tree.size := by
  have counts := ((groupKeys_perm tree).filter
    fun key => decide (1 < tree.argumentKeys.count key)).map tree.argumentKeys.count
  calc
    callsAmong tree (groupKeys tree) =
        tree.argumentKeys.countP fun key => 1 < tree.argumentKeys.count key :=
      counts.sum_eq.trans (List.sum_map_count_dedup_filter_eq_countP _ _)
    _ ≤ tree.argumentKeys.length := List.countP_le_length
    _ = tree.size := tree.length_argumentKeys

theorem length_groupKeys_le (tree : CallTree) : (groupKeys tree).length ≤ tree.size := by
  rw [(groupKeys_perm tree).length_eq, ← tree.length_argumentKeys]
  exact (List.dedup_sublist _).length_le

theorem marksAfter_groupKeys (tree : CallTree) :
    marksAfter tree (groupKeys tree) =
      { repeats := (ofTree tree.markRepeats.1).repeats
        groups := .ofNat tree.markRepeats.2.groups
        annotated := .ofNat tree.markRepeats.2.annotated } := by
  have groups : (repeatedAmong tree (groupKeys tree)).length = tree.markRepeats.2.groups := by
    rw [CallTree.groups_markRepeats]
    exact ((groupKeys_perm tree).filter _).length_eq
  have repeats : (marksAfter tree (groupKeys tree)).repeats =
      (ofTree tree.markRepeats.1).repeats := by
    simp only [ofTree, CallTree.markRepeats, Array.map_map, marksAfter]
    apply Array.map_congr_left
    intro call member
    have listed : argumentKey call.argument ∈ groupKeys tree := by
      rw [(groupKeys_perm tree).mem_iff, List.mem_dedup]
      exact List.mem_map_of_mem (Array.mem_def.mp member)
    simp only [listed, true_and, Function.comp_apply, CallTree.noteRepeats,
      CallTree.getD_argumentCounts]
    split <;> rfl
  rw [← repeats, ← groups, ← callsAmong_groupKeys]
  rfl

/-- Noting repetitions changes one column. -/
theorem ofTree_markRepeats (tree : CallTree) :
    ofTree tree.markRepeats.1 =
      { ofTree tree with repeats := (ofTree tree.markRepeats.1).repeats } := by
  obtain ⟨parents, -, children⟩ := tree.views_markRepeats
  have column {β : Type} {ofCall : Call → β}
      (forgets : ∀ call repeats, ofCall { call with repeats } = ofCall call) :
      tree.markRepeats.1.calls.map ofCall = tree.calls.map ofCall := by
    simp only [CallTree.markRepeats, Array.map_map]
    apply Array.map_congr_left
    intro call _
    obtain ⟨repeats, noted⟩ := CallTree.exists_noteRepeats tree.argumentCounts call
    rw [Function.comp_apply, noted, forgets]
  have sized : tree.markRepeats.1.size = tree.size := Array.size_map
  apply Columns.ext
  case nextSibling => simp only [ofTree, CallTree.sibling?, parents, children, sized]
  case len => exact congrArg UInt32.ofNat sized
  case repeats | rowWidths | family | isTruncated => rfl
  all_goals exact column fun _ _ => rfl

theorem markRepeats_ofTree (bounded : tree.size ≤ CallTree.capacity) :
    (ofTree tree).markRepeats = .ok (ofTree tree.markRepeats.1,
      { repeats := (ofTree tree.markRepeats.1).repeats
        groups := .ofNat tree.markRepeats.2.groups
        annotated := .ofNat tree.markRepeats.2.annotated }) := by
  have capacity : CallTree.capacity < UInt32.size := by decide
  have noted : ((groupKeys tree).map (membersWith tree)).foldlM Columns.markMembers
      (marksAfter tree []) = .ok (marksAfter tree ([] ++ groupKeys tree)) :=
    foldlM_markMembers bounded
      (Nat.lt_of_le_of_lt (Nat.le_trans (length_groupKeys_le tree) bounded) capacity)
      (Nat.lt_of_le_of_lt (Nat.le_trans (callsAmong_groupKeys_le tree) bounded) capacity)
  have start : marksAfter tree [] = { repeats := (ofTree tree).repeats } := by
    simp [marksAfter, repeatedAmong, callsAmong, ofTree]
  have len := toNat_len bounded
  rw [Columns.markRepeats, len, foldlM_group_ofTree bounded, ok_bind, map_snd_groups, ← start,
    noted, ok_bind, List.nil_append, marksAfter_groupKeys, ofTree_markRepeats]
  rfl

end Words

end Unfolding
