import Unfolding.Proofs.CallTree.Levels
import Unfolding.Proofs.Words.Basic

/-!
Call trees in columns of words.

Each property of the calls has a column of its own.  A call knows its caller, its
first and its last call, and the call that its caller made next.  Additions change the
columns in place, step by step, and come to the columns of the larger tree.
-/

namespace Unfolding

namespace CallTree

/-- The call that the caller of a call made next. -/
def sibling? (tree : CallTree) (slot : Nat) : Option Nat :=
  (tree.parent? slot).bind fun parent => (tree.children parent).find? (slot < ·)

variable {tree result : CallTree} {parent : Nat} {id : String} {argument : Float} {isBase : Bool}

/-- What can be read off the calls after an addition. -/
theorem map_calls_of_addChild {β : Type} (ofCall : Call → β) {caller : Call}
    (found : tree.calls[parent]? = some caller)
    (added : tree.addChild parent id argument isBase = .ok result) :
    result.calls.map ofCall =
      ((tree.calls.map ofCall).push (ofCall
        { id, argument, level := caller.level + 1, isBase, parent := some parent })).setIfInBounds
          parent (ofCall { caller with children := caller.children.push tree.size }) := by
  obtain ⟨same, sameFound, calls⟩ := getElem?_of_addChild added
  obtain rfl : caller = same := Option.some.inj (found.symm.trans sameFound)
  have inside : parent < tree.calls.size := lt_size_iff.mpr ⟨caller, found⟩
  have notLast := Nat.ne_of_lt inside
  have bounded := Nat.lt_succ_of_lt inside
  apply Array.ext_getElem?
  intro slot
  rw [Array.getElem?_map, calls, Array.getElem?_setIfInBounds, Array.getElem?_push, Array.size_push,
    Array.size_map, Array.getElem?_map]
  by_cases last : slot = tree.calls.size
  · simp [size, last, notLast]
  · by_cases here : parent = slot
    · subst here
      simp [size, notLast, bounded]
    · simp [size, last, here, Ne.symm here]

/-- Most of what can be read off the calls does not depend on the calls that they make. -/
theorem map_calls_of_addChild_of_forgets {β : Type} {ofCall : Call → β} {caller : Call}
    (forgets : ∀ call children, ofCall { call with children } = ofCall call)
    (found : tree.calls[parent]? = some caller)
    (added : tree.addChild parent id argument isBase = .ok result) :
    result.calls.map ofCall =
      (tree.calls.map ofCall).push (ofCall
        { id, argument, level := caller.level + 1, isBase, parent := some parent }) := by
  rw [map_calls_of_addChild ofCall found added, forgets]
  apply Words.setIfInBounds_same
  have inside : parent < tree.calls.size := lt_size_iff.mpr ⟨caller, found⟩
  simp [Array.getElem?_push, Nat.ne_of_lt inside, found]

theorem find?_eq_none_iff_getLast? {slots : List Nat} {slot : Nat}
    (ordered : slots.Pairwise (· < ·)) (member : slot ∈ slots) :
    slots.find? (slot < ·) = none ↔ slots.getLast? = some slot := by
  obtain ⟨front, last, rfl⟩ :=
    (List.eq_nil_or_concat slots).resolve_left (List.ne_nil_of_mem member)
  rw [List.concat_eq_append, List.pairwise_append] at ordered
  rw [List.concat_eq_append, List.mem_append, List.mem_singleton] at member
  have earlier : ∀ other ∈ front, other < last := fun other inFront =>
    ordered.2.2 other inFront last (List.mem_singleton.mpr rfl)
  simp only [List.concat_eq_append, List.find?_eq_none, List.mem_append, List.mem_singleton,
    decide_eq_true_eq, Nat.not_lt, List.getLast?_append, List.getLast?_singleton, Option.some_or,
    Option.some_inj]
  constructor
  · intro latest
    rcases member with inFront | rfl
    · exact absurd (latest last (.inr rfl)) (Nat.not_le_of_lt (earlier slot inFront))
    · rfl
  · rintro rfl other (inFront | rfl)
    · exact Nat.le_of_lt (earlier other inFront)
    · exact Nat.le_refl other

namespace Linked

variable {slot : Nat} {caller : Call}

theorem callees_eq (linked : tree.Linked) (found : tree.calls[parent]? = some caller) :
    tree.callees parent = caller.children.toList := by
  rw [← linked.children, CallTree.children, found]

theorem parent?_of_back? (linked : tree.Linked) (found : tree.calls[parent]? = some caller)
    (last : caller.children.back? = some slot) : tree.parent? slot = some parent := by
  rw [← mem_callees_iff, linked.callees_eq found]
  rw [← Array.getLast?_toList] at last
  exact List.mem_of_getLast? last

/-- The call made last is the one without a next sibling. -/
theorem sibling?_eq_none_iff (linked : tree.Linked) (found : tree.calls[parent]? = some caller)
    (made : tree.parent? slot = some parent) :
    tree.sibling? slot = none ↔ caller.children.back? = some slot := by
  rw [sibling?, made, Option.bind_some, linked.children, ← Array.getLast?_toList,
    ← linked.callees_eq found]
  exact find?_eq_none_iff_getLast? (tree.pairwise_callees parent) (mem_callees_iff.mpr made)

/-- A new call is the next sibling of the call that its caller made last. -/
theorem sibling?_of_addChild (linked : tree.Linked) (found : tree.calls[parent]? = some caller)
    (added : tree.addChild parent id argument isBase = .ok result) (slot : Nat) :
    result.sibling? slot =
      if caller.children.back? = some slot then some tree.size else tree.sibling? slot := by
  have lastMade : caller.children.back? = some slot → tree.parent? slot = some parent :=
    linked.parent?_of_back? found
  rw [sibling?, parent?_of_addChild added]
  by_cases new : slot = tree.size
  · subst new
    have unmade : tree.parent? tree.size = none := by
      rw [parent?, size, Array.getElem?_size, Option.bind_none]
    have notLast : caller.children.back? ≠ some tree.size := by
      intro last
      simp [unmade] at lastMade
      exact lastMade last
    rw [if_pos rfl, Option.bind_some, children_of_addChild added, if_pos rfl, linked.children,
      if_neg notLast, sibling?, unmade, Option.bind_none, List.find?_eq_none]
    intro child member
    rw [List.mem_append, mem_callees_iff, List.mem_singleton] at member
    rcases member with made | rfl
    · simpa using Nat.le_of_lt (lt_size_of_parent? made)
    · simp
  · rw [if_neg new]
    cases made : tree.parent? slot with
    | none =>
        have notLast : caller.children.back? ≠ some slot := by
          intro last
          cases made.symm.trans (lastMade last)
        rw [Option.bind_none, if_neg notLast, sibling?, made, Option.bind_none]
    | some above =>
        rw [Option.bind_some, children_of_addChild added]
        by_cases here : above = parent
        · subst here
          have siblings : tree.sibling? slot = (tree.children above).find? (slot < ·) := by
            rw [sibling?, made, Option.bind_some]
          have earlier := lt_size_of_parent? made
          have lastIff := linked.sibling?_eq_none_iff found made
          rw [if_pos rfl, List.find?_append, ← siblings]
          by_cases last : caller.children.back? = some slot
          · simp [last, lastIff.mpr last, earlier]
          · obtain ⟨next, followed⟩ := Option.ne_none_iff_exists'.mp (mt lastIff.mp last)
            simp [last, followed]
        · have notLast : caller.children.back? ≠ some slot := by
            intro last
            exact here (Option.some.inj (made.symm.trans (lastMade last)))
          rw [if_neg here, List.append_nil, if_neg notLast, sibling?, made, Option.bind_some]

end Linked

end CallTree

namespace Words

/-- A call tree, one column for each property of its calls. -/
@[ext]
structure Columns where
  parent : Array UInt32 := #[]
  firstChild : Array UInt32 := #[]
  lastChild : Array UInt32 := #[]
  nextSibling : Array UInt32 := #[]
  ids : Array String := #[]
  argument : Array Float := #[]
  level : Array UInt32 := #[]
  isBase : Array Bool := #[]
  repeats : Array (Option UInt32) := #[]
  rowWidths : Array UInt64 := #[]
  family : Family
  isTruncated : Bool := false
  len : UInt32 := 0

namespace Columns

/-- A slot is in use. -/
def validate (columns : Columns) (slot : UInt32) : Checked Unit :=
  if slot < columns.len then .ok ()
  else .error (.fault (.misuse (.slotOutOfRange slot.toNat columns.len.toNat)))

/-- The entry of a column for a call. -/
def fetch {α : Type} (columns : Columns) (column : Array α) (slot : UInt32) : Checked α := do
  columns.validate slot
  read column slot.toNat

/-- The slot of the caller of a call. -/
def caller (columns : Columns) (slot : UInt32) : Checked (Option UInt32) := do
  let parent ← columns.fetch columns.parent slot
  return if parent = noSlot then none else some parent

end Columns

/-! ### Changes in place -/

/-- A computation that changes columns in place.  Where it stops, the columns stay
as they are by then. -/
def Building (α : Type) : Type := Columns → Checked α × Columns

namespace Building

variable {α β : Type}

instance : Monad Building where
  pure value := fun columns => (.ok value, columns)
  bind first rest := fun columns =>
    match first columns with
    | (.ok value, columns) => rest value columns
    | (.error trap, columns) => (.error trap, columns)

/-- Work something out from the columns. -/
def look (compute : Columns → Checked α) : Building α := fun columns => (compute columns, columns)

def update (change : Columns → Columns) : Building Unit := fun columns => (.ok (), change columns)

/-- What comes of the columns, unless something goes wrong. -/
def outcome (building : Building α) (columns : Columns) : Checked (Columns × α) :=
  match building columns with
  | (.ok value, columns) => .ok (columns, value)
  | (.error trap, _) => .error trap

/-- Put a call behind the others. -/
def pushSlot (parent : UInt32) (id : String) (argument : Float) (level : UInt32) (isBase : Bool) :
    Building UInt32 := do
  let slot ← look fun columns =>
    if columns.len.toNat < CallTree.capacity then .ok columns.len
    else .error (.fault (.misuse .treeFull))
  let len ← look fun columns => add columns.len 1
  -- nothing can go wrong from one entry to the next, so all are written in one step
  update fun columns => { columns with
    parent := columns.parent.push parent
    firstChild := columns.firstChild.push noSlot
    lastChild := columns.lastChild.push noSlot
    nextSibling := columns.nextSibling.push noSlot
    ids := columns.ids.push id
    argument := columns.argument.push argument
    level := columns.level.push level
    isBase := columns.isBase.push isBase
    repeats := columns.repeats.push none
    len }
  return slot

def pushRoot (id : String) (argument : Float) (isBase : Bool) : Building UInt32 := do
  look fun columns =>
    if columns.len = 0 then .ok () else .error (.fault (.misuse .rootTaken))
  pushSlot noSlot id argument 0 isBase

/-- Link a new call to the call that its caller made before, or to its caller if
it is the first. -/
def linkChild (parent child : UInt32) : Building Unit := do
  let first ← look fun columns => read columns.firstChild parent.toNat
  if first = noSlot then
    let firstChild ← look fun columns => do
      write columns.firstChild parent.toNat (← link child)
    update fun columns => { columns with firstChild }
  else
    let last ← look fun columns => read columns.lastChild parent.toNat
    let nextSibling ← look fun columns => do
      write columns.nextSibling last.toNat (← link child)
    update fun columns => { columns with nextSibling }

def pushChild (parent : UInt32) (id : String) (argument : Float) (isBase : Bool) :
    Building UInt32 := do
  look fun columns => columns.validate parent
  let level ← look fun columns => do add (← read columns.level parent.toNat) 1
  let caller ← look fun _ => link parent
  let child ← pushSlot caller id argument level isBase
  linkChild parent child
  let lastChild ← look fun columns => do write columns.lastChild parent.toNat (← link child)
  update fun columns => { columns with lastChild }
  return child

theorem bind_apply (first : Building α) (rest : α → Building β) (columns : Columns) :
    (first >>= rest) columns =
      match first columns with
      | (.ok value, columns) => rest value columns
      | (.error trap, columns) => (.error trap, columns) := rfl

theorem bind_of_ok {first : Building α} {columns between : Columns} {value : α}
    (built : first columns = (.ok value, between)) (rest : α → Building β) :
    (first >>= rest) columns = rest value between := by
  rw [bind_apply, built]

theorem look_bind (compute : Columns → Checked α) (rest : α → Building β) (columns : Columns) :
    (look compute >>= rest) columns =
      match compute columns with
      | .ok value => rest value columns
      | .error trap => (.error trap, columns) := by
  rw [bind_apply, look]
  cases compute columns <;> rfl

theorem update_bind (change : Columns → Columns) (rest : Unit → Building β) (columns : Columns) :
    (update change >>= rest) columns = rest () (change columns) := rfl

theorem pure_apply (value : α) (columns : Columns) :
    (pure value : Building α) columns = (.ok value, columns) := rfl

section

variable {columns result : Columns} {value : β}

theorem exists_of_bind {first : Building α} {rest : α → Building β}
    (built : (first >>= rest) columns = (.ok value, result)) :
    ∃ middle between, first columns = (.ok middle, between) ∧
      rest middle between = (.ok value, result) := by
  rw [bind_apply] at built
  split at built
  · rename_i middle between first
    exact ⟨middle, between, first, built⟩
  · cases built

theorem exists_of_look {compute : Columns → Checked α} {rest : α → Building β}
    (built : (look compute >>= rest) columns = (.ok value, result)) :
    ∃ middle, compute columns = .ok middle ∧ rest middle columns = (.ok value, result) := by
  rw [look_bind] at built
  split at built
  · rename_i middle computed
    exact ⟨middle, computed, built⟩
  · cases built

theorem outcome_eq_ok_iff {building : Building β} :
    building.outcome columns = .ok (result, value) ↔ building columns = (.ok value, result) := by
  rw [outcome]
  split
  · rename_i built
    rw [built]
    constructor <;> rintro ⟨⟩ <;> rfl
  · rename_i stopped
    rw [stopped]
    constructor <;> rintro ⟨⟩

end

/-! Every addition makes the columns longer by one. -/

section

variable {columns result : Columns} {parent slot : UInt32} {id : String} {argument : Float}
  {isBase : Bool}

theorem len_of_pushSlot {level : UInt32}
    (pushed : pushSlot parent id argument level isBase columns = (.ok slot, result)) :
    result.len.toNat = columns.len.toNat + 1 := by
  rcases exists_of_look pushed with ⟨place, -, pushed⟩
  rcases exists_of_look pushed with ⟨len, longer, pushed⟩
  cases pushed
  exact toNat_of_add longer

theorem len_of_linkChild {child : UInt32}
    (linked : linkChild parent child columns = (.ok (), result)) : result.len = columns.len := by
  rcases exists_of_look linked with ⟨first, -, linked⟩
  split at linked
  · rcases exists_of_look linked with ⟨firstChild, -, linked⟩
    cases linked
    rfl
  · rcases exists_of_look linked with ⟨last, -, linked⟩
    rcases exists_of_look linked with ⟨nextSibling, -, linked⟩
    cases linked
    rfl

theorem len_of_pushChild
    (pushed : pushChild parent id argument isBase columns = (.ok slot, result)) :
    result.len.toNat = columns.len.toNat + 1 := by
  rcases exists_of_look pushed with ⟨_, -, pushed⟩
  rcases exists_of_look pushed with ⟨level, -, pushed⟩
  rcases exists_of_look pushed with ⟨caller, -, pushed⟩
  rcases exists_of_bind pushed with ⟨child, grown, slotPushed, pushed⟩
  rcases exists_of_bind pushed with ⟨_, relinked, linked, pushed⟩
  rcases exists_of_look pushed with ⟨lastChild, -, pushed⟩
  cases pushed
  rw [← len_of_pushSlot slotPushed, ← len_of_linkChild linked]

end

end Building

namespace Columns

def pushRoot (columns : Columns) (id : String) (argument : Float) (isBase : Bool) :
    Checked (Columns × UInt32) := (Building.pushRoot id argument isBase).outcome columns

def pushChild (columns : Columns) (parent : UInt32) (id : String) (argument : Float)
    (isBase : Bool) : Checked (Columns × UInt32) :=
  (Building.pushChild parent id argument isBase).outcome columns

theorem len_of_pushChild {columns result : Columns} {parent slot : UInt32} {id : String}
    {argument : Float} {isBase : Bool}
    (pushed : columns.pushChild parent id argument isBase = .ok (result, slot)) :
    result.len.toNat = columns.len.toNat + 1 :=
  Building.len_of_pushChild (Building.outcome_eq_ok_iff.mp pushed)

end Columns

/-- The columns of a tree. -/
def ofTree (tree : CallTree) : Columns where
  parent := tree.calls.map fun call => linkWord call.parent
  firstChild := tree.calls.map fun call => linkWord call.children[0]?
  lastChild := tree.calls.map fun call => linkWord call.children.back?
  nextSibling := ((List.range tree.size).map fun slot => linkWord (tree.sibling? slot)).toArray
  ids := tree.calls.map Call.id
  argument := tree.calls.map Call.argument
  level := tree.calls.map fun call => .ofNat call.level
  isBase := tree.calls.map Call.isBase
  repeats := tree.calls.map fun call => call.repeats.map UInt32.ofNat
  rowWidths := tree.rowWidths.map UInt64.ofNat
  family := tree.family
  isTruncated := tree.isTruncated
  len := .ofNat tree.size

theorem ofTree_empty (family : Family) (rowWidths : Array Nat) :
    ofTree { family, rowWidths } = { family, rowWidths := rowWidths.map .ofNat } := by
  simp [ofTree, CallTree.size]

theorem ofTree_truncated (tree : CallTree) :
    ofTree { tree with isTruncated := true } = { ofTree tree with isTruncated := true } := rfl

variable {tree result : CallTree} {parent : Nat} {id : String} {argument : Float} {isBase : Bool}

theorem toNat_slot {slot : Nat} (bounded : tree.size ≤ CallTree.capacity)
    (inside : slot ≤ tree.size) : (UInt32.ofNat slot).toNat = slot :=
  toNat_ofNat (Nat.lt_of_le_of_lt (Nat.le_trans inside bounded) (by decide))

theorem toNat_len (bounded : tree.size ≤ CallTree.capacity) :
    (ofTree tree).len.toNat = tree.size :=
  toNat_slot bounded (Nat.le_refl _)

theorem level_lt_capacity (linked : tree.Linked) (bounded : tree.size ≤ CallTree.capacity)
    {call : Call} (member : call ∈ tree.calls.toList) : call.level < CallTree.capacity :=
  Nat.lt_of_lt_of_le (CallTree.level_lt_levelCount member)
    (Nat.le_trans linked.levelCount_le bounded)

theorem validate_ofTree {slot : Nat} (bounded : tree.size ≤ CallTree.capacity)
    (inside : slot < tree.size) : (ofTree tree).validate (.ofNat slot) = .ok () := by
  apply if_pos
  rwa [UInt32.lt_iff_toNat_lt, toNat_slot bounded (Nat.le_of_lt inside), toNat_len bounded]

theorem fetch_ofTree {α : Type} {ofCall : Call → α} {slot : Nat} {call : Call}
    (bounded : tree.size ≤ CallTree.capacity) (found : tree.calls[slot]? = some call) :
    (ofTree tree).fetch (tree.calls.map ofCall) (.ofNat slot) = .ok (ofCall call) := by
  have inside : slot < tree.size := CallTree.lt_size_iff.mpr ⟨call, found⟩
  rw [Columns.fetch, validate_ofTree bounded inside, ok_bind,
    toNat_slot bounded (Nat.le_of_lt inside)]
  exact read_eq_ok (by simp [found])

theorem caller_ofTree (linked : tree.Linked) (bounded : tree.size ≤ CallTree.capacity) {slot : Nat}
    (inside : slot < tree.size) :
    (ofTree tree).caller (.ofNat slot) = .ok ((tree.parent? slot).map UInt32.ofNat) := by
  obtain ⟨call, found⟩ := CallTree.lt_size_iff.mp inside
  have word : (ofTree tree).fetch (ofTree tree).parent (.ofNat slot) = .ok (linkWord call.parent) :=
    fetch_ofTree bounded found
  have made : tree.parent? slot = call.parent := by rw [CallTree.parent?, found, Option.bind_some]
  rw [Columns.caller, word, ok_bind, ← made]
  cases above : tree.parent? slot with
  | none => rfl
  | some parent =>
      have earlier := (linked.caller above).1
      simp [linkWord, ofNat_ne_noSlot (show parent < CallTree.capacity by omega)]

theorem read_level_ofTree {slot : Nat} {call : Call} (found : tree.calls[slot]? = some call) :
    read (ofTree tree).level slot = .ok (.ofNat call.level) :=
  read_eq_ok (by simp [ofTree, found])

/-- There is a word for the level below every call. -/
theorem add_level (linked : tree.Linked) (bounded : tree.size ≤ CallTree.capacity) {slot : Nat}
    {call : Call} (found : tree.calls[slot]? = some call) :
    add (.ofNat call.level) 1 = .ok (.ofNat (call.level + 1)) := by
  have member : call ∈ tree.calls.toList := Array.mem_def.mp (Array.mem_of_getElem? found)
  exact add_one (Nat.lt_of_le_of_lt (level_lt_capacity linked bounded member) (by decide))

theorem pushSlot_ofTree (room : tree.size < CallTree.capacity) (above level : UInt32) :
    Building.pushSlot above id argument level isBase (ofTree tree) =
      (.ok (.ofNat tree.size), { ofTree tree with
        parent := (ofTree tree).parent.push above
        firstChild := (ofTree tree).firstChild.push noSlot
        lastChild := (ofTree tree).lastChild.push noSlot
        nextSibling := (ofTree tree).nextSibling.push noSlot
        ids := (ofTree tree).ids.push id
        argument := (ofTree tree).argument.push argument
        level := (ofTree tree).level.push level
        isBase := (ofTree tree).isBase.push isBase
        repeats := (ofTree tree).repeats.push none
        len := .ofNat (tree.size + 1) }) := by
  have fits : (ofTree tree).len.toNat < CallTree.capacity := by
    rwa [toNat_len (Nat.le_of_lt room)]
  have longer : add (ofTree tree).len 1 = .ok (.ofNat (tree.size + 1)) :=
    add_one (Nat.lt_of_le_of_lt room (by decide))
  simp only [Building.pushSlot, Building.look_bind, if_pos fits, longer]
  rfl

/-- Where an empty tree takes a root, so do its columns. -/
theorem Building.pushRoot_ofTree (added : tree.addRoot id argument isBase = .ok result) :
    Building.pushRoot id argument isBase (ofTree tree) = (.ok 0, ofTree result) := by
  obtain ⟨empty, single⟩ := CallTree.exists_of_addRoot added
  have sized : tree.size = 0 := by simp [CallTree.size, empty]
  have unlinked : result.sibling? 0 = none := by
    simp [CallTree.sibling?, CallTree.parent?, single]
  have first : (ofTree tree).len = 0 := by simp [ofTree, sized]
  simp only [Building.pushRoot, look_bind, if_pos first]
  rw [pushSlot_ofTree (by simp [sized, CallTree.capacity])]
  have whole := CallTree.eq_of_addRoot added
  rw [single] at whole
  subst whole
  simp [ofTree, empty, CallTree.size, unlinked, linkWord]

theorem pushRoot_ofTree (added : tree.addRoot id argument isBase = .ok result) :
    (ofTree tree).pushRoot id argument isBase = .ok (ofTree result, 0) :=
  Building.outcome_eq_ok_iff.mpr (Building.pushRoot_ofTree added)

section

variable {caller : Call}

/-- An addition changes the links of older calls, and nothing else of them. -/
theorem ofTree_of_addChild (found : tree.calls[parent]? = some caller)
    (added : tree.addChild parent id argument isBase = .ok result) :
    ofTree result = { ofTree tree with
      parent := (ofTree tree).parent.push (.ofNat parent)
      firstChild := (ofTree result).firstChild
      lastChild := (ofTree result).lastChild
      nextSibling := (ofTree result).nextSibling
      ids := (ofTree tree).ids.push id
      argument := (ofTree tree).argument.push argument
      level := (ofTree tree).level.push (.ofNat (caller.level + 1))
      isBase := (ofTree tree).isBase.push isBase
      repeats := (ofTree tree).repeats.push none
      len := .ofNat (tree.size + 1) } := by
  have column {β : Type} {ofCall : Call → β}
      (forgets : ∀ call children, ofCall { call with children } = ofCall call) :=
    CallTree.map_calls_of_addChild_of_forgets forgets found added
  have same := CallTree.eq_of_addChild added
  apply Columns.ext
  case firstChild | lastChild | nextSibling => rfl
  case rowWidths => exact congrArg (fun tree => tree.rowWidths.map UInt64.ofNat) same
  case family => exact (congrArg CallTree.family same :)
  case isTruncated => exact (congrArg CallTree.isTruncated same :)
  case len => exact congrArg UInt32.ofNat (CallTree.size_addChild added)
  all_goals exact column fun _ _ => rfl

theorem nextSibling_of_addChild (linked : tree.Linked) (found : tree.calls[parent]? = some caller)
    (added : tree.addChild parent id argument isBase = .ok result) :
    (ofTree result).nextSibling =
      match caller.children.back? with
      | none => (ofTree tree).nextSibling.push noSlot
      | some last =>
          ((ofTree tree).nextSibling.push noSlot).setIfInBounds last (.ofNat tree.size) := by
  have siblings := linked.sibling?_of_addChild found added
  have new : tree.sibling? tree.size = none := by
    rw [CallTree.sibling?, CallTree.parent?, CallTree.size, Array.getElem?_size, Option.bind_none,
      Option.bind_none]
  have pushed : (ofTree tree).nextSibling.push noSlot =
      ((List.range (tree.size + 1)).map fun slot => linkWord (tree.sibling? slot)).toArray := by
    simp [ofTree, List.range_succ, new, linkWord]
  have sized := CallTree.size_addChild added
  rw [pushed]
  cases back : caller.children.back? with
  | none => simp [ofTree, sized, siblings, back]
  | some last =>
      have inside := CallTree.lt_size_of_parent? (linked.parent?_of_back? found back)
      apply Array.ext_getElem?
      intro slot
      rw [Array.getElem?_setIfInBounds]
      by_cases here : last = slot
      · subst here
        simp [ofTree, sized, siblings, back, Nat.lt_succ_of_lt inside, linkWord]
      · by_cases within : slot < tree.size + 1
        · simp [ofTree, sized, siblings, back, here, within]
        · simp [ofTree, sized, siblings, here, within]

theorem firstChild_of_addChild (found : tree.calls[parent]? = some caller)
    (added : tree.addChild parent id argument isBase = .ok result) :
    (ofTree result).firstChild =
      if caller.children = #[] then
        ((ofTree tree).firstChild.push noSlot).setIfInBounds parent (.ofNat tree.size)
      else (ofTree tree).firstChild.push noSlot := by
  have inside : parent < tree.calls.size := CallTree.lt_size_iff.mpr ⟨caller, found⟩
  have column : (ofTree result).firstChild = ((ofTree tree).firstChild.push noSlot).setIfInBounds
      parent (linkWord (caller.children.push tree.size)[0]?) :=
    CallTree.map_calls_of_addChild (fun call => linkWord call.children[0]?) found added
  rw [column]
  split
  · rename_i childless
    simp [childless, linkWord]
  · rename_i nonempty
    apply setIfInBounds_same
    have kept : (caller.children.push tree.size)[0]? = caller.children[0]? := by
      rw [Array.getElem?_push, if_neg (Nat.ne_of_lt (Array.size_pos_iff.mpr nonempty))]
    rw [kept]
    simp [ofTree, Array.getElem?_push, Nat.ne_of_lt inside, found]

theorem lastChild_of_addChild (found : tree.calls[parent]? = some caller)
    (added : tree.addChild parent id argument isBase = .ok result) :
    (ofTree result).lastChild =
      ((ofTree tree).lastChild.push noSlot).setIfInBounds parent (.ofNat tree.size) := by
  have column : (ofTree result).lastChild = ((ofTree tree).lastChild.push noSlot).setIfInBounds
      parent (linkWord (caller.children.push tree.size).back?) :=
    CallTree.map_calls_of_addChild (fun call => linkWord call.children.back?) found added
  rw [column, Array.back?_push, linkWord]

theorem room_of_addChild (added : tree.addChild parent id argument isBase = .ok result) :
    tree.size < CallTree.capacity := by
  have bounded := CallTree.size_le_of_addChild added
  rwa [CallTree.size_addChild added] at bounded

/-- The links of older calls change as they do in the tree. -/
theorem linkChild_of_addChild (linked : tree.Linked) (found : tree.calls[parent]? = some caller)
    (added : tree.addChild parent id argument isBase = .ok result) {grown : Columns}
    (firsts : grown.firstChild = (ofTree tree).firstChild.push noSlot)
    (lasts : grown.lastChild = (ofTree tree).lastChild.push noSlot)
    (siblings : grown.nextSibling = (ofTree tree).nextSibling.push noSlot) :
    Building.linkChild (.ofNat parent) (.ofNat tree.size) grown =
      (.ok (), { grown with
        firstChild := (ofTree result).firstChild
        nextSibling := (ofTree result).nextSibling }) := by
  have inside : parent < tree.calls.size := CallTree.lt_size_iff.mpr ⟨caller, found⟩
  have old := Nat.ne_of_lt inside
  have room := room_of_addChild added
  have bounded := Nat.le_of_lt room
  have slot := toNat_slot bounded (Nat.le_of_lt inside)
  have first : read grown.firstChild parent = .ok (linkWord caller.children[0]?) :=
    read_eq_ok (by simp [firsts, ofTree, Array.getElem?_push, old, found])
  rw [nextSibling_of_addChild linked found added, firstChild_of_addChild found added, ← firsts,
    ← siblings]
  by_cases childless : caller.children = #[]
  · have writable : parent < grown.firstChild.size := by
      simp [firsts, ofTree, Nat.lt_succ_of_lt inside]
    simp [Building.linkChild, Building.look_bind, Building.update, slot, first, childless, linkWord,
      link_ofNat room, write_eq_ok writable]
  · obtain ⟨before, back⟩ := Option.ne_none_iff_exists'.mp (mt Array.back?_eq_none_iff.mp childless)
    have earlier := CallTree.lt_size_of_parent? (linked.parent?_of_back? found back)
    have occupied : linkWord caller.children[0]? ≠ noSlot := by
      have nonempty := Array.size_pos_iff.mpr childless
      have member : caller.children[0] ∈ tree.callees parent := by
        rw [linked.callees_eq found, Array.mem_toList_iff]
        exact Array.getElem_mem nonempty
      rw [Array.getElem?_eq_getElem nonempty]
      exact ofNat_ne_noSlot
        (Nat.lt_trans (CallTree.lt_size_of_parent? (CallTree.mem_callees_iff.mp member)) room)
    have last : read grown.lastChild parent = .ok (.ofNat before) :=
      read_eq_ok (by simp [lasts, ofTree, Array.getElem?_push, old, found, back, linkWord])
    have writable : before < grown.nextSibling.size := by
      simp [siblings, ofTree, Nat.lt_succ_of_lt earlier]
    simp [Building.linkChild, Building.look_bind, Building.update, slot, first, occupied, last,
      toNat_slot bounded (Nat.le_of_lt earlier), link_ofNat room, write_eq_ok writable, childless,
      back]

end

/-- Where a tree takes a call, so do its columns. -/
theorem Building.pushChild_ofTree (linked : tree.Linked)
    (added : tree.addChild parent id argument isBase = .ok result) :
    Building.pushChild (.ofNat parent) id argument isBase (ofTree tree) =
      (.ok (.ofNat tree.size), ofTree result) := by
  obtain ⟨caller, found, -⟩ := CallTree.getElem?_of_addChild added
  have inside : parent < tree.size := CallTree.lt_size_iff.mpr ⟨caller, found⟩
  have room := room_of_addChild added
  have bounded := Nat.le_of_lt room
  have level := read_level_ofTree found
  have next := add_level linked bounded found
  have writable : parent < ((ofTree tree).lastChild.push noSlot).size := by
    simp [ofTree, Nat.lt_succ_of_lt (show parent < tree.calls.size from inside)]
  simp only [Building.pushChild, look_bind, validate_ofTree bounded inside,
    toNat_slot bounded (Nat.le_of_lt inside), level, next, ok_bind,
    link_ofNat (Nat.lt_trans inside room)]
  rw [bind_of_ok (pushSlot_ofTree room _ _),
    bind_of_ok (linkChild_of_addChild linked found added rfl rfl rfl)]
  simp only [look_bind, link_ofNat room, ok_bind, write_eq_ok writable]
  rw [update_bind, pure_apply, ← lastChild_of_addChild found added, ofTree_of_addChild found added]

theorem pushChild_ofTree (linked : tree.Linked)
    (added : tree.addChild parent id argument isBase = .ok result) :
    (ofTree tree).pushChild (.ofNat parent) id argument isBase =
      .ok (ofTree result, .ofNat tree.size) :=
  Building.outcome_eq_ok_iff.mpr (Building.pushChild_ofTree linked added)

end Words

end Unfolding
