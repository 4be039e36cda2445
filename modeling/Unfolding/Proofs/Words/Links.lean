import Unfolding.Proofs.Words.Repetition

/-!
Columns that are changed in place.

The calls of a call are found by following links: its column of first calls leads to
one of them, and the column of next siblings from each to the next.  Whatever is done
to columns, and wherever it is refused, these links lead through exactly the calls
that name it as their caller.
-/

namespace Unfolding

theorem CallTree.Linked.sibling?_of_parts {tree : CallTree} {parent slot : Nat}
    {front rest : List Nat} (linked : tree.Linked)
    (parts : tree.children parent = front ++ slot :: rest) : tree.sibling? slot = rest.head? := by
  have made : tree.parent? slot = some parent := by
    rw [← linked.mem_children_iff, parts]
    exact List.mem_append_right _ List.mem_cons_self
  have ordered := tree.pairwise_callees parent
  rw [← linked.children, parts, List.pairwise_append, List.pairwise_cons] at ordered
  rcases ordered with ⟨-, ⟨later, -⟩, earlier⟩
  have passed : front.find? (slot < ·) = none := by
    simp only [List.find?_eq_none, decide_eq_true_eq, Nat.not_lt]
    exact fun child member => Nat.le_of_lt (earlier child member slot List.mem_cons_self)
  rw [CallTree.sibling?, made, Option.bind_some, parts, List.find?_append, passed, Option.none_or,
    List.find?_cons_of_neg (by simp)]
  cases rest with
  | nil => rfl
  | cons next rest =>
      exact List.find?_cons_of_pos (decide_eq_true (later next List.mem_cons_self))

namespace Words

namespace Columns

/-- How many entries the columns have that hold one for each call. -/
def sizes (columns : Columns) : List Nat :=
  [columns.parent.size, columns.firstChild.size, columns.lastChild.size, columns.nextSibling.size,
    columns.ids.size, columns.argument.size, columns.level.size, columns.isBase.size,
    columns.repeats.size]

/-- Whether a call makes no calls. -/
def isLeaf (columns : Columns) (slot : UInt32) : Checked Bool := do
  let first ← columns.fetch columns.firstChild slot
  return first == noSlot

/-- One step along the siblings: the call that a link leads to, if it leads to any,
and the link that is followed next. -/
def nextChild (columns : Columns) (link : UInt32) : Checked (Option UInt32 × UInt32) :=
  if link = noSlot then .ok (none, link)
  else do
    let following ← read columns.nextSibling link.toNat
    return (some link, following)

/-- Step by step, a link leads to these calls and then to none. -/
inductive Walks (columns : Columns) : UInt32 → List UInt32 → Prop
  | ended {link rest : UInt32} (stepped : columns.nextChild link = .ok (none, rest)) :
      Walks columns link []
  | found {link rest slot : UInt32} {slots : List UInt32}
      (stepped : columns.nextChild link = .ok (some slot, rest)) (more : Walks columns rest slots) :
      Walks columns link (slot :: slots)

/-- The walk through the calls of a call, from the first on. -/
def HasChildren (columns : Columns) (slot : UInt32) (children : List UInt32) : Prop :=
  ∃ first, columns.fetch columns.firstChild slot = .ok first ∧ columns.Walks first children

/-- The columns hold one tree, and their links agree. -/
structure Linked (columns : Columns) : Prop where
  sized : ∀ size ∈ columns.sizes, size = columns.len.toNat
  root : ∀ slot < columns.len, columns.caller slot = .ok none ↔ slot = 0
  caller : ∀ slot, 0 < slot → slot < columns.len → ∃ parent above level,
    columns.caller slot = .ok (some parent) ∧ parent < slot ∧
    columns.fetch columns.level parent = .ok above ∧
    columns.fetch columns.level slot = .ok level ∧ level.toNat = above.toNat + 1
  children : ∀ slot < columns.len, ∃ children,
    (∀ walked, columns.HasChildren slot walked ↔ walked = children) ∧
    (∀ child, child ∈ children ↔ columns.caller child = .ok (some slot)) ∧
    children.Pairwise (· < ·) ∧ columns.isLeaf slot = .ok children.isEmpty ∧
    columns.fetch columns.lastChild slot = .ok (children.getLast?.getD noSlot)

theorem Walks.unique {columns : Columns} {link : UInt32} {slots others : List UInt32}
    (first : columns.Walks link slots) (second : columns.Walks link others) : slots = others := by
  induction first generalizing others with
  | ended stepped =>
      cases second with
      | ended _ => rfl
      | found other _ => cases stepped.symm.trans other
  | found stepped _ inductionHypothesis =>
      cases second with
      | ended other => cases stepped.symm.trans other
      | found other more =>
          cases stepped.symm.trans other
          rw [inductionHypothesis more]

theorem HasChildren.unique {columns : Columns} {slot : UInt32} {children others : List UInt32}
    (first : columns.HasChildren slot children) (second : columns.HasChildren slot others) :
    children = others := by
  rcases first with ⟨link, fetched, walk⟩
  rcases second with ⟨other, otherFetched, otherWalk⟩
  cases fetched.symm.trans otherFetched
  exact walk.unique otherWalk

theorem HasChildren.lt_len {columns : Columns} {slot : UInt32} {children : List UInt32}
    (walked : columns.HasChildren slot children) : slot < columns.len := by
  rcases walked with ⟨first, fetched, -⟩
  rcases exists_of_bind fetched with ⟨_, valid, -⟩
  unfold validate at valid
  split at valid
  · assumption
  · cases valid

/-- Every call but the root is found by its caller, and by no other call. -/
theorem Linked.existsUnique_hasChildren {columns : Columns} (linked : columns.Linked)
    {slot : UInt32} (notRoot : 0 < slot) (inside : slot < columns.len) :
    ∃! parent, ∃ children, columns.HasChildren parent children ∧ slot ∈ children := by
  rcases linked.caller slot notRoot inside with ⟨parent, above, level, made, earlier, -⟩
  rcases linked.children parent (UInt32.lt_trans earlier inside) with ⟨children, walked, members, -⟩
  refine ⟨parent, ⟨children, (walked children).mpr rfl, (members slot).mpr made⟩, ?_⟩
  rintro other ⟨others, walkedOther, member⟩
  rcases linked.children other walkedOther.lt_len with ⟨same, walkedSame, membersSame, -⟩
  rw [(walkedSame others).mp walkedOther, membersSame, made] at member
  cases member
  rfl

end Columns

variable {tree result : CallTree}

/-! ### Reading the columns of a tree -/

theorem lt_len_iff (bounded : tree.size ≤ CallTree.capacity) {slot : UInt32} :
    slot < (ofTree tree).len ↔ slot.toNat < tree.size := by
  rw [UInt32.lt_iff_toNat_lt, toNat_len bounded]

theorem sizes_ofTree (bounded : tree.size ≤ CallTree.capacity) :
    ∀ size ∈ (ofTree tree).sizes, size = (ofTree tree).len.toNat := by
  rw [toNat_len bounded]
  simp [Columns.sizes, ofTree, CallTree.size]

theorem caller_of_outside (bounded : tree.size ≤ CallTree.capacity) {slot : UInt32}
    (outside : ¬ slot.toNat < tree.size) (above : Option UInt32) :
    (ofTree tree).caller slot ≠ .ok above := by
  have invalid : (ofTree tree).validate slot = .error _ :=
    if_neg (mt (lt_len_iff bounded).mp outside)
  rw [Columns.caller, Columns.fetch, invalid]
  rintro ⟨⟩

theorem caller_eq_some_iff (linked : tree.Linked) (bounded : tree.size ≤ CallTree.capacity)
    {slot parent : UInt32} :
    (ofTree tree).caller slot = .ok (some parent) ↔
      tree.parent? slot.toNat = some parent.toNat := by
  by_cases inside : slot.toNat < tree.size
  · have word := caller_ofTree linked bounded inside
    rw [UInt32.ofNat_toNat] at word
    rw [word]
    cases made : tree.parent? slot.toNat with
    | none => simp
    | some above =>
        have earlier := (linked.caller made).1
        have same : (UInt32.ofNat above).toNat = above := toNat_slot bounded (by omega)
        rw [Option.map_some, Except.ok.injEq, Option.some_inj, Option.some_inj, ← UInt32.toNat_inj,
          same]
  · refine iff_of_false (caller_of_outside bounded inside _) ?_
    intro made
    exact inside (CallTree.lt_size_of_parent? made)

theorem caller_eq_none_iff (linked : tree.Linked) (bounded : tree.size ≤ CallTree.capacity)
    {slot : UInt32} (inside : slot.toNat < tree.size) :
    (ofTree tree).caller slot = .ok none ↔ slot = 0 := by
  have word := caller_ofTree linked bounded inside
  rw [UInt32.ofNat_toNat] at word
  rw [word, Except.ok.injEq, Option.map_eq_none_iff, ← UInt32.toNat_inj]
  exact ⟨fun none => (linked.root inside none).1, linked.parent?_eq_none_of_eq_zero⟩

theorem fetch_word {α : Type} {ofCall : Call → α} {slot : UInt32} {call : Call}
    (bounded : tree.size ≤ CallTree.capacity) (found : tree.calls[slot.toNat]? = some call) :
    (ofTree tree).fetch (tree.calls.map ofCall) slot = .ok (ofCall call) := by
  have fetched : (ofTree tree).fetch (tree.calls.map ofCall) (.ofNat slot.toNat) =
      .ok (ofCall call) := fetch_ofTree bounded found
  rwa [UInt32.ofNat_toNat] at fetched

theorem children_bounded (linked : tree.Linked) {parent child : Nat}
    (member : child ∈ tree.children parent) : child < tree.size :=
  CallTree.lt_size_of_parent? (linked.mem_children_iff.mp member)

/-- From any of the calls of a call the links lead through those behind it. -/
theorem walks_ofTree (linked : tree.Linked) (bounded : tree.size ≤ CallTree.capacity)
    {parent : Nat} {front rest : List Nat} (parts : tree.children parent = front ++ rest) :
    (ofTree tree).Walks (linkWord rest.head?) (rest.map UInt32.ofNat) := by
  induction rest generalizing front with
  | nil => exact .ended (if_pos rfl)
  | cons slot rest inductionHypothesis =>
      have member : slot ∈ tree.children parent := by
        rw [parts]
        exact List.mem_append_right _ List.mem_cons_self
      have inside := children_bounded linked member
      have sibling : read (ofTree tree).nextSibling slot = .ok (linkWord rest.head?) := by
        apply read_eq_ok
        simp [ofTree, inside, linked.sibling?_of_parts parts]
      have stepped : (ofTree tree).nextChild (.ofNat slot) =
          .ok (some (.ofNat slot), linkWord rest.head?) := by
        rw [Columns.nextChild, if_neg (ofNat_ne_noSlot (Nat.lt_of_lt_of_le inside bounded)),
          toNat_slot bounded (Nat.le_of_lt inside), sibling]
        rfl
      have behind : tree.children parent = front ++ [slot] ++ rest := by
        rw [parts, List.append_assoc, List.singleton_append]
      exact .found stepped (inductionHypothesis behind)

theorem firstChild_ofTree (bounded : tree.size ≤ CallTree.capacity) {slot : UInt32}
    (inside : slot.toNat < tree.size) :
    (ofTree tree).fetch (ofTree tree).firstChild slot =
      .ok (linkWord (tree.children slot.toNat).head?) := by
  rcases CallTree.lt_size_iff.mp inside with ⟨call, found⟩
  have first : (tree.children slot.toNat).head? = call.children[0]? := by
    rw [CallTree.children, found, List.head?_eq_getElem?, Array.getElem?_toList]
  rw [first]
  exact fetch_word bounded found

theorem hasChildren_ofTree (linked : tree.Linked) (bounded : tree.size ≤ CallTree.capacity)
    {slot : UInt32} (inside : slot.toNat < tree.size) :
    (ofTree tree).HasChildren slot ((tree.children slot.toNat).map UInt32.ofNat) :=
  ⟨_, firstChild_ofTree bounded inside, walks_ofTree linked bounded (List.nil_append _).symm⟩

theorem isLeaf_ofTree (linked : tree.Linked) (bounded : tree.size ≤ CallTree.capacity)
    {slot : UInt32} (inside : slot.toNat < tree.size) :
    (ofTree tree).isLeaf slot = .ok (tree.children slot.toNat).isEmpty := by
  rw [Columns.isLeaf, firstChild_ofTree bounded inside, ok_bind, pure_eq_ok]
  cases made : tree.children slot.toNat with
  | nil => rfl
  | cons child children =>
      have small := children_bounded linked (made ▸ List.mem_cons_self : child ∈ _)
      have linkedTo := ofNat_ne_noSlot (Nat.lt_of_lt_of_le small bounded)
      simp [linkWord, linkedTo]

theorem lastChild_ofTree (bounded : tree.size ≤ CallTree.capacity) {slot : UInt32}
    (inside : slot.toNat < tree.size) :
    (ofTree tree).fetch (ofTree tree).lastChild slot =
      .ok (((tree.children slot.toNat).map UInt32.ofNat).getLast?.getD noSlot) := by
  rcases CallTree.lt_size_iff.mp inside with ⟨call, found⟩
  have last : (tree.children slot.toNat).getLast? = call.children.back? := by
    rw [CallTree.children, found, Array.getLast?_toList]
  have word : ((tree.children slot.toNat).map UInt32.ofNat).getLast?.getD noSlot =
      linkWord call.children.back? := by
    rw [List.getLast?_map, last]
    cases call.children.back? <;> rfl
  rw [word]
  exact fetch_word bounded found

theorem mem_map_children_iff (linked : tree.Linked) (bounded : tree.size ≤ CallTree.capacity)
    {slot child : UInt32} :
    child ∈ (tree.children slot.toNat).map UInt32.ofNat ↔
      (ofTree tree).caller child = .ok (some slot) := by
  rw [caller_eq_some_iff linked bounded, ← linked.mem_children_iff, List.mem_map]
  constructor
  · rintro ⟨place, member, rfl⟩
    rwa [toNat_slot bounded (Nat.le_of_lt (children_bounded linked member))]
  · intro member
    exact ⟨child.toNat, member, UInt32.ofNat_toNat⟩

theorem pairwise_map_children (linked : tree.Linked) (bounded : tree.size ≤ CallTree.capacity)
    (parent : Nat) : ((tree.children parent).map UInt32.ofNat).Pairwise (· < ·) := by
  have ordered := tree.pairwise_callees parent
  rw [← linked.children] at ordered
  rw [List.pairwise_map]
  refine ordered.imp_of_mem ?_
  intro first second memberFirst memberSecond later
  rw [UInt32.lt_iff_toNat_lt,
    toNat_slot bounded (Nat.le_of_lt (children_bounded linked memberFirst)),
    toNat_slot bounded (Nat.le_of_lt (children_bounded linked memberSecond))]
  exact later

theorem linked_ofTree (linked : tree.Linked) (bounded : tree.size ≤ CallTree.capacity) :
    (ofTree tree).Linked where
  sized := sizes_ofTree bounded
  root slot inside := caller_eq_none_iff linked bounded ((lt_len_iff bounded).mp inside)
  caller := by
    intro slot notRoot inside
    rw [lt_len_iff bounded] at inside
    rw [UInt32.lt_iff_toNat_lt] at notRoot
    rcases CallTree.lt_size_iff.mp inside with ⟨call, found⟩
    rcases linked.exists_caller notRoot found with
      ⟨parent, caller, made, earlier, callerFound, level⟩
    have word : (UInt32.ofNat parent).toNat = parent :=
      toNat_slot bounded (Nat.le_of_lt (Nat.lt_trans earlier inside))
    refine ⟨.ofNat parent, .ofNat caller.level, .ofNat call.level, ?_, ?_, ?_, ?_, ?_⟩
    · rw [caller_eq_some_iff linked bounded, CallTree.parent?, found, Option.bind_some, made, word]
    · rw [UInt32.lt_iff_toNat_lt, word]
      exact earlier
    · exact fetch_ofTree bounded callerFound
    · exact fetch_word bounded found
    · rw [level]
      exact toNat_of_add (add_level linked bounded callerFound)
  children := by
    intro slot inside
    rw [lt_len_iff bounded] at inside
    have walked := hasChildren_ofTree linked bounded inside
    refine ⟨_, ?_, fun _ => mem_map_children_iff linked bounded,
      pairwise_map_children linked bounded slot.toNat, ?_, lastChild_ofTree bounded inside⟩
    · intro other
      constructor
      · intro walkedToo
        exact walkedToo.unique walked
      · rintro rfl
        exact walked
    · rw [isLeaf_ofTree linked bounded inside, List.isEmpty_map]

/-! ### Edits -/

/-- What can be done to columns. -/
inductive Edit where
  | pushRoot (id : String) (argument : Float) (isBase : Bool)
  | pushChild (parent : UInt32) (id : String) (argument : Float) (isBase : Bool)
  | markRepeats

namespace Edit

/-- The edit of a tree. -/
def onTree : Edit → CallTree.Edit
  | .pushRoot id argument isBase => .addRoot id argument isBase
  | .pushChild parent id argument isBase => .addChild parent.toNat id argument isBase
  | .markRepeats => .markRepeats

def build : Edit → Building Unit
  | .pushRoot id argument isBase => do
      let _ ← Building.pushRoot id argument isBase
      return ()
  | .pushChild parent id argument isBase => do
      let _ ← Building.pushChild parent id argument isBase
      return ()
  | .markRepeats => do
      -- marking is never stopped half way (`markRepeats_ofTree`), so it counts as one step
      let (marked, _) ← Building.look Columns.markRepeats
      Building.update fun _ => marked

end Edit

/-- The columns after a history of edits, as far as each of them came. -/
def Columns.after (columns : Columns) (edits : List Edit) : Columns :=
  edits.foldl (fun columns edit => (edit.build columns).2) columns

/-- Why an edit is refused, if it is. -/
def Columns.refusal? (columns : Columns) : Edit → Option Misuse
  | .pushRoot .. => if columns.len = 0 then none else some .rootTaken
  | .pushChild parent .. =>
      if columns.len ≤ parent then some (.slotOutOfRange parent.toNat columns.len.toNat)
      else if columns.len.toNat < CallTree.capacity then none
      else some .treeFull
  | .markRepeats => none

section Refusals

variable {columns : Columns} {parent : UInt32} {id : String} {argument : Float} {isBase : Bool}

theorem pushRoot_of_taken (taken : columns.len ≠ 0) :
    Building.pushRoot id argument isBase columns =
      (.error (.fault (.misuse .rootTaken)), columns) := by
  simp only [Building.pushRoot, Building.look_bind, if_neg taken]

theorem pushChild_of_outside (outside : columns.len ≤ parent) :
    Building.pushChild parent id argument isBase columns =
      (.error (.fault (.misuse (.slotOutOfRange parent.toNat columns.len.toNat))), columns) := by
  have invalid : columns.validate parent =
      .error (.fault (.misuse (.slotOutOfRange parent.toNat columns.len.toNat))) :=
    if_neg (UInt32.not_lt.mpr outside)
  simp only [Building.pushChild, Building.look_bind, invalid]

theorem pushSlot_of_full (full : ¬ columns.len.toNat < CallTree.capacity) (level : UInt32) :
    Building.pushSlot parent id argument level isBase columns =
      (.error (.fault (.misuse .treeFull)), columns) := by
  simp only [Building.pushSlot, Building.look_bind, if_neg full]

theorem pushChild_of_full (linked : tree.Linked) (bounded : tree.size ≤ CallTree.capacity)
    (inside : parent < (ofTree tree).len)
    (full : ¬ (ofTree tree).len.toNat < CallTree.capacity) :
    Building.pushChild parent id argument isBase (ofTree tree) =
      (.error (.fault (.misuse .treeFull)), ofTree tree) := by
  have valid : (ofTree tree).validate parent = .ok () := if_pos inside
  rw [lt_len_iff bounded] at inside
  rcases CallTree.lt_size_iff.mp inside with ⟨caller, found⟩
  have linkable : link parent = .ok parent := by
    have linkable := link_ofNat (Nat.lt_of_lt_of_le inside bounded)
    rwa [UInt32.ofNat_toNat] at linkable
  simp only [Building.pushChild, Building.look_bind, valid, read_level_ofTree found, ok_bind,
    add_level linked bounded found, linkable]
  rw [Building.bind_apply, pushSlot_of_full full]

end Refusals

/-! ### Histories -/

theorem refusal?_ofTree (bounded : tree.size ≤ CallTree.capacity) (edit : Edit) :
    (ofTree tree).refusal? edit = tree.refusal? edit.onTree := by
  have len := toNat_len bounded
  cases edit with
  | pushRoot id argument isBase =>
      simp only [Columns.refusal?, Edit.onTree, CallTree.refusal?, ← UInt32.toNat_inj, len]
      rfl
  | pushChild parent id argument isBase =>
      simp only [Columns.refusal?, Edit.onTree, CallTree.refusal?, UInt32.le_iff_toNat_le, len]
  | markRepeats => rfl

/-- A refused edit has not changed anything. -/
theorem build_of_refused (linked : tree.Linked) (bounded : tree.size ≤ CallTree.capacity)
    {edit : Edit} {misuse : Misuse} (refused : (ofTree tree).refusal? edit = some misuse) :
    edit.build (ofTree tree) = (.error (.fault (.misuse misuse)), ofTree tree) := by
  unfold Columns.refusal? at refused
  split at refused
  · split at refused
    · cases refused
    · rename_i taken
      cases refused
      rw [Edit.build, Building.bind_apply, pushRoot_of_taken taken]
  · split at refused
    · rename_i outside
      cases refused
      rw [Edit.build, Building.bind_apply, pushChild_of_outside outside]
    · rename_i inside
      split at refused
      · cases refused
      · rename_i full
        cases refused
        rw [Edit.build, Building.bind_apply,
          pushChild_of_full linked bounded (UInt32.not_le.mp inside) full]
  · cases refused

/-- An edit does to columns what it does to their tree. -/
theorem build_of_edit (linked : tree.Linked) (bounded : tree.size ≤ CallTree.capacity)
    {edit : Edit} (edited : tree.edit edit.onTree = .ok result) :
    edit.build (ofTree tree) = (.ok (), ofTree result) := by
  cases edit with
  | pushRoot id argument isBase =>
      rw [Edit.build, Building.bind_of_ok (Building.pushRoot_ofTree edited)]
      rfl
  | pushChild parent id argument isBase =>
      have pushed := Building.pushChild_ofTree linked edited
      rw [UInt32.ofNat_toNat] at pushed
      rw [Edit.build, Building.bind_of_ok pushed]
      rfl
  | markRepeats =>
      cases edited
      simp only [Edit.build, Building.look_bind, markRepeats_ofTree bounded]
      rfl

theorem after_ofTree (linked : tree.Linked) (bounded : tree.size ≤ CallTree.capacity)
    (edits : List Edit) :
    (ofTree tree).after edits = ofTree (tree.attemptAll (edits.map Edit.onTree)) := by
  induction edits generalizing tree with
  | nil => rfl
  | cons edit edits inductionHypothesis =>
      have step : (edit.build (ofTree tree)).2 = ofTree (tree.attempt edit.onTree) := by
        unfold CallTree.attempt
        cases edited : tree.edit edit.onTree with
        | ok result => rw [build_of_edit linked bounded edited]
        | error fault =>
            rcases CallTree.edit_eq_error_iff.mp edited with ⟨misuse, refused, -⟩
            rw [← refusal?_ofTree bounded] at refused
            rw [build_of_refused linked bounded refused]
      have keptLinked : (tree.attempt edit.onTree).Linked := linked.attemptAll [edit.onTree]
      have keptBounded : (tree.attempt edit.onTree).size ≤ CallTree.capacity :=
        CallTree.size_attemptAll_le bounded [edit.onTree]
      rw [Columns.after, List.foldl_cons, step]
      exact inductionHypothesis keptLinked keptBounded

/-- Whatever edits are tried on empty columns, these hold one tree, and a refused
edit leaves no trace in them. -/
theorem history_keeps_columns_linked (family : Family) (edits : List Edit) :
    let columns := ({ family } : Columns).after edits
    let tree := CallTree.attemptAll { family } (edits.map Edit.onTree)
    columns = ofTree tree ∧
    columns.Linked ∧
    (∀ slot, 0 < slot → slot < columns.len →
      ∃! parent, ∃ children, columns.HasChildren parent children ∧ slot ∈ children) ∧
    (∀ (slot : UInt32) (call : Call), tree.calls[slot.toNat]? = some call →
      columns.HasChildren slot ((tree.children slot.toNat).map UInt32.ofNat) ∧
        columns.isLeaf slot = .ok call.isLeaf) ∧
    (∀ edit misuse, columns.refusal? edit = some misuse →
      edit.build columns = (.error (.fault (.misuse misuse)), columns)) ∧
    ∀ edit, columns.refusal? edit = none → (edit.build columns).1 = .ok () := by
  have start : ({ family } : Columns) = ofTree { family } := by simp [ofTree, CallTree.size]
  have empty : ({ family } : CallTree).Linked := .of_empty rfl
  have same : ({ family } : Columns).after edits =
      ofTree (CallTree.attemptAll { family } (edits.map Edit.onTree)) := by
    rw [start]
    exact after_ofTree empty (Nat.zero_le _) edits
  have linked := empty.attemptAll (edits.map Edit.onTree)
  have bounded : (CallTree.attemptAll { family } (edits.map Edit.onTree)).size ≤
      CallTree.capacity := CallTree.size_attemptAll_le (Nat.zero_le _) _
  dsimp only
  rw [same]
  generalize CallTree.attemptAll { family } (edits.map Edit.onTree) = tree at linked bounded
  have linkedColumns := linked_ofTree linked bounded
  refine ⟨rfl, linkedColumns, fun _ => linkedColumns.existsUnique_hasChildren, ?_, ?_, ?_⟩
  · intro slot call found
    have inside : slot.toNat < tree.size := CallTree.lt_size_iff.mpr ⟨call, found⟩
    refine ⟨hasChildren_ofTree linked bounded inside, ?_⟩
    rw [isLeaf_ofTree linked bounded inside, CallTree.children, found, Array.isEmpty_toList]
    rfl
  · intro edit misuse refused
    exact build_of_refused linked bounded refused
  · intro edit accepted
    rw [refusal?_ofTree bounded] at accepted
    cases edited : tree.edit edit.onTree with
    | ok result => rw [build_of_edit linked bounded edited]
    | error fault =>
        rcases CallTree.edit_eq_error_iff.mp edited with ⟨misuse, refused, -⟩
        cases accepted.symm.trans refused

end Words

end Unfolding
