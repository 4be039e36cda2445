import Unfolding.CallTree.Basic
import Mathlib.Data.List.Nodup

/-!
Call trees that follow an outline.

An outline tells what the calls of a tree are without telling where they stand:
calls are named by keys, and the children of a call are reached from its key.
A tree follows an outline along a list of keys if its slots hold the calls of
these keys, in this order.  Adding a root or a child extends the list by one.
-/

namespace Unfolding

variable {Key : Type}

structure Outline (Key : Type) where
  /-- The number of calls that a call makes, if it makes any. -/
  arity : Nat
  child : Key → Nat → Key
  id : Key → String
  argument : Key → Float
  level : Key → Nat
  isBase : Key → Bool
  child_injective : ∀ {key other i j}, i < arity → j < arity →
    child key i = child other j → key = other ∧ i = j
  level_child : ∀ key i, level (child key i) = level key + 1
  id_injective : ∀ {key other}, id key = id other → key = other

namespace Outline

variable (outline : Outline Key)

/-- A call is the one that a key stands for, among the calls of `keys`. -/
structure Describes (keys : List Key) (key : Key) (call : Call) : Prop where
  id : call.id = outline.id key
  argument : call.argument = outline.argument key
  level : call.level = outline.level key
  isBase : call.isBase = outline.isBase key
  parent : ∀ slot, call.parent = some slot ↔
    ∃ caller i, i < outline.arity ∧ keys[slot]? = some caller ∧ outline.child caller i = key
  children : ∀ i slot, call.children[i]? = some slot ↔
    i < outline.arity ∧ keys[slot]? = some (outline.child key i)

/-- A call makes no calls, among those of `keys`. -/
def Childless (keys : List Key) (key : Key) : Prop :=
  ∀ i < outline.arity, outline.child key i ∉ keys

/-- Some call that is not a base case makes no calls. -/
def IsCutShort (keys : List Key) : Prop :=
  ∃ key ∈ keys, outline.isBase key = false ∧ outline.Childless keys key

/-- Base cases make no calls. -/
def EndsAtBases (keys : List Key) : Prop :=
  ∀ key ∈ keys, outline.isBase key = true → outline.Childless keys key

theorem child_ne_self (key : Key) (i : Nat) : outline.child key i ≠ key := by
  intro same
  have levels := outline.level_child key i
  rw [same] at levels
  omega

theorem getElem?_concat_eq_some_iff (keys : List Key) (new key : Key) (slot : Nat) :
    (keys ++ [new])[slot]? = some key ↔
      keys[slot]? = some key ∨ slot = keys.length ∧ new = key := by
  by_cases inside : slot < keys.length
  · rw [List.getElem?_append_left inside]
    constructor
    · exact .inl
    · rintro (found | ⟨last, -⟩)
      · exact found
      · omega
  · rw [List.getElem?_eq_none (Nat.le_of_not_lt inside)]
    by_cases last : slot = keys.length
    · subst last
      simp
    · rw [List.getElem?_eq_none (by simp; omega)]
      simp [last]

namespace Describes

variable {outline} {keys : List Key} {key caller new : Key} {call : Call} {index : Nat}

/-- The caller of a described call is not changed by a new key that it did not make. -/
theorem parent_concat (described : outline.Describes keys key call)
    (notMade : ∀ i < outline.arity, outline.child new i ≠ key) (slot : Nat) :
    call.parent = some slot ↔ ∃ caller i, i < outline.arity ∧
      (keys ++ [new])[slot]? = some caller ∧ outline.child caller i = key := by
  rw [described.parent]
  constructor
  · rintro ⟨caller, i, bounded, found, made⟩
    exact ⟨caller, i, bounded, (getElem?_concat_eq_some_iff _ _ _ _).mpr (.inl found), made⟩
  · rintro ⟨caller, i, bounded, found, made⟩
    rcases (getElem?_concat_eq_some_iff _ _ _ _).mp found with found | ⟨-, rfl⟩
    · exact ⟨caller, i, bounded, found, made⟩
    · exact absurd made (notMade i bounded)

/-- A new key changes nothing for a call that neither made it nor was made by it. -/
theorem concat (described : outline.Describes keys key call)
    (notCaller : ∀ i < outline.arity, outline.child key i ≠ new)
    (notMade : ∀ i < outline.arity, outline.child new i ≠ key) :
    outline.Describes (keys ++ [new]) key call where
  id := described.id
  argument := described.argument
  level := described.level
  isBase := described.isBase
  parent := described.parent_concat notMade
  children := by
    intro i slot
    rw [described.children, getElem?_concat_eq_some_iff]
    constructor
    · rintro ⟨bounded, found⟩
      exact ⟨bounded, .inl found⟩
    · rintro ⟨bounded, found | ⟨-, made⟩⟩
      · exact ⟨bounded, found⟩
      · exact absurd made.symm (notCaller i bounded)

/-- A caller whose first `index` calls are there has that many children. -/
theorem size_children (described : outline.Describes keys key call)
    (bounded : index ≤ outline.arity)
    (made : ∀ i < outline.arity, outline.child key i ∈ keys ↔ i < index) :
    call.children.size = index := by
  apply Nat.le_antisymm
  · apply Nat.le_of_not_lt
    intro more
    obtain ⟨inside, found⟩ := (described.children index _).mp (Array.getElem?_eq_getElem more)
    exact Nat.lt_irrefl index ((made index inside).mp (List.mem_of_getElem? found))
  · apply Nat.le_of_not_lt
    intro fewer
    have inside : call.children.size < outline.arity := Nat.lt_of_lt_of_le fewer bounded
    obtain ⟨slot, found⟩ := List.getElem?_of_mem ((made _ inside).mpr fewer)
    have child := (described.children _ slot).mpr ⟨inside, found⟩
    simp at child

/-- The caller of a new key gets it as its last child. -/
theorem concat_child (described : outline.Describes keys caller call)
    (bounded : index < outline.arity)
    (made : ∀ i < outline.arity, outline.child caller i ∈ keys ↔ i < index)
    (notMade : ∀ i < outline.arity, outline.child (outline.child caller index) i ≠ caller) :
    outline.Describes (keys ++ [outline.child caller index]) caller
      { call with children := call.children.push keys.length } where
  id := described.id
  argument := described.argument
  level := described.level
  isBase := described.isBase
  parent := described.parent_concat notMade
  children := by
    intro i slot
    rw [getElem?_concat_eq_some_iff, Array.getElem?_push,
      described.size_children (Nat.le_of_lt bounded) made]
    by_cases last : i = index
    · subst last
      have absent : keys[slot]? ≠ some (outline.child caller i) := by
        intro found
        exact Nat.lt_irrefl i ((made i bounded).mp (List.mem_of_getElem? found))
      simp [bounded, absent, eq_comm]
    · have different : i < outline.arity → outline.child caller index ≠ outline.child caller i := by
        intro inside same
        exact last (outline.child_injective bounded inside same).2.symm
      rw [if_neg last, described.children]
      constructor
      · rintro ⟨inside, found⟩
        exact ⟨inside, .inl found⟩
      · rintro ⟨inside, found | ⟨-, same⟩⟩
        · exact ⟨inside, found⟩
        · exact absurd same (different inside)

/-- A new call, before it makes calls of its own. -/
theorem fresh (distinct : keys.Nodup) {parent : Nat} (found : keys[parent]? = some caller)
    (bounded : index < outline.arity)
    (childless : outline.Childless keys (outline.child caller index)) :
    outline.Describes (keys ++ [outline.child caller index]) (outline.child caller index)
      { id := outline.id (outline.child caller index)
        argument := outline.argument (outline.child caller index)
        level := outline.level caller + 1
        isBase := outline.isBase (outline.child caller index)
        parent := some parent } where
  id := rfl
  argument := rfl
  level := (outline.level_child caller index).symm
  isBase := rfl
  parent := by
    intro slot
    constructor
    · rintro ⟨⟩
      exact ⟨caller, index, bounded, (getElem?_concat_eq_some_iff _ _ _ _).mpr (.inl found), rfl⟩
    · rintro ⟨other, i, inside, place, same⟩
      obtain ⟨rfl, rfl⟩ := outline.child_injective inside bounded same
      rcases (getElem?_concat_eq_some_iff _ _ _ _).mp place with place | ⟨-, itself⟩
      · obtain ⟨within, -⟩ := List.getElem?_eq_some_iff.mp place
        exact congrArg some ((List.getElem?_inj within distinct).mp (place.trans found.symm)).symm
      · exact absurd itself (outline.child_ne_self _ _)
  children := by
    intro i slot
    simp only [List.getElem?_toArray, List.getElem?_nil, reduceCtorEq, false_iff, not_and]
    intro inside place
    rcases (getElem?_concat_eq_some_iff _ _ _ _).mp place with place | ⟨-, itself⟩
    · exact childless i inside (List.mem_of_getElem? place)
    · exact outline.child_ne_self _ _ itself.symm

end Describes

end Outline

namespace CallTree

/-- The slots of the tree hold the calls of `keys`. -/
structure Follows (tree : CallTree) (outline : Outline Key) (keys : List Key) : Prop where
  distinct : keys.Nodup
  size : tree.size = keys.length
  call : ∀ {slot : Nat} {key : Key}, keys[slot]? = some key →
    ∃ call, tree.calls[slot]? = some call ∧ outline.Describes keys key call

namespace Follows

variable {tree : CallTree} {outline : Outline Key} {keys : List Key}

theorem of_calls_eq (follows : tree.Follows outline keys) {other : CallTree}
    (same : other.calls = tree.calls) : other.Follows outline keys where
  distinct := follows.distinct
  size := by
    rw [CallTree.size, same]
    exact follows.size
  call := by
    rw [same]
    exact follows.call

/-- The key of the call in a slot. -/
theorem key_of_call (follows : tree.Follows outline keys) {slot : Nat} {call : Call}
    (found : tree.calls[slot]? = some call) :
    ∃ key, keys[slot]? = some key ∧ outline.Describes keys key call := by
  obtain ⟨within, -⟩ := Array.getElem?_eq_some_iff.mp found
  have inside : slot < keys.length := follows.size ▸ within
  have place := List.getElem?_eq_getElem inside
  obtain ⟨other, same, described⟩ := follows.call place
  rw [found] at same
  cases same
  exact ⟨_, place, described⟩

/-- What is read off the calls can be read off the keys. -/
theorem map_calls (follows : tree.Follows outline keys) {β : Type} {ofCall : Call → β}
    {ofKey : Key → β}
    (agree : ∀ {key call}, outline.Describes keys key call → ofCall call = ofKey key) :
    tree.calls.toList.map ofCall = keys.map ofKey := by
  apply List.ext_getElem?
  intro slot
  rw [List.getElem?_map, List.getElem?_map, Array.getElem?_toList]
  cases found : keys[slot]? with
  | none =>
      have outside := List.getElem?_eq_none_iff.mp found
      have noCall : tree.calls[slot]? = none :=
        Array.getElem?_eq_none (Nat.le_trans (Nat.le_of_eq follows.size) outside)
      rw [noCall]
      rfl
  | some key =>
      obtain ⟨call, place, described⟩ := follows.call found
      rw [place, Option.map_some, Option.map_some, agree described]

/-- A tree with only a root follows the root's key. -/
theorem addRoot (outline : Outline Key) {tree : CallTree} (empty : tree.size = 0) {root : Key}
    (top : outline.level root = 0) :
    ∃ result, tree.addRoot (outline.id root) (outline.argument root) (outline.isBase root) =
        .ok result ∧
      result = { tree with calls := result.calls } ∧ result.Follows outline [root] := by
  have noCalls : tree.calls = #[] := Array.eq_empty_of_size_eq_zero empty
  have room : tree.size < capacity := by
    rw [empty]
    decide
  refine ⟨_, by simp only [CallTree.addRoot, append, if_pos empty, if_pos room]; rfl, rfl, ?_⟩
  have notMade (caller : Key) (i : Nat) : outline.child caller i ≠ root := by
    intro made
    have levels := outline.level_child caller i
    rw [made] at levels
    omega
  refine ⟨List.nodup_singleton root, by simp [CallTree.size, noCalls], ?_⟩
  intro slot key found
  obtain ⟨rfl, rfl⟩ : slot = 0 ∧ key = root := by
    cases slot <;> simp_all
  refine ⟨_, by simp [noCalls]; rfl, rfl, rfl, top.symm, rfl, ?_, ?_⟩
  · simp [notMade]
  · intro i slot
    simp only [List.getElem?_toArray, List.getElem?_nil, reduceCtorEq, false_iff, not_and]
    intro _ place
    have member := List.mem_singleton.mp (List.mem_of_getElem? place)
    exact outline.child_ne_self _ _ member

/-- The calls of a caller are added one after another. -/
theorem addChild (follows : tree.Follows outline keys) (room : tree.size < capacity)
    {parent : Nat} {caller : Key} {index : Nat} (found : keys[parent]? = some caller)
    (bounded : index < outline.arity)
    (made : ∀ i < outline.arity, outline.child caller i ∈ keys ↔ i < index)
    (childless : outline.Childless keys (outline.child caller index)) :
    ∃ result, tree.addChild parent (outline.id (outline.child caller index))
        (outline.argument (outline.child caller index))
        (outline.isBase (outline.child caller index)) = .ok result ∧
      result = { tree with calls := result.calls } ∧
      result.Follows outline (keys ++ [outline.child caller index]) := by
  obtain ⟨call, callFound, described⟩ := follows.call found
  refine ⟨_, addChild_of_room callFound room _ _ _, rfl, ?_⟩
  have new : outline.child caller index ∉ keys := by
    intro member
    exact Nat.lt_irrefl index ((made index bounded).mp member)
  refine ⟨List.nodup_append.mpr ⟨follows.distinct, List.nodup_singleton _, ?_⟩, ?_, ?_⟩
  · intro key member other last same
    exact new (List.mem_singleton.mp last ▸ same ▸ member)
  · rw [size_link, CallTree.size, Array.size_push, List.length_append, List.length_singleton]
    exact congrArg (· + 1) follows.size
  · intro slot key place
    rw [getElem?_calls_link, Array.getElem?_push]
    rcases (Outline.getElem?_concat_eq_some_iff _ _ _ _).mp place with before | ⟨rfl, rfl⟩
    · obtain ⟨within, -⟩ := List.getElem?_eq_some_iff.mp before
      have notLast : slot ≠ tree.calls.size := by
        have sized := follows.size
        rw [CallTree.size] at sized
        omega
      have notMade (i : Nat) (inside : i < outline.arity) :
          outline.child (outline.child caller index) i ≠ key := by
        rintro rfl
        exact childless i inside (List.mem_of_getElem? before)
      by_cases here : parent = slot
      · subst here
        rw [found] at before
        cases before
        rw [if_pos rfl, if_neg notLast, callFound, follows.size]
        exact ⟨_, rfl, described.concat_child bounded made notMade⟩
      · rw [if_neg here, if_neg notLast]
        obtain ⟨other, otherFound, otherDescribed⟩ := follows.call before
        refine ⟨other, otherFound, otherDescribed.concat ?_ notMade⟩
        intro i inside same
        obtain ⟨rfl, -⟩ := outline.child_injective inside bounded same
        exact here ((List.getElem?_inj within follows.distinct).mp (before.trans found.symm)).symm
    · obtain ⟨within, -⟩ := List.getElem?_eq_some_iff.mp found
      have sized := follows.size
      rw [CallTree.size] at sized
      rw [if_neg (by omega), if_pos sized.symm, described.level]
      exact ⟨_, rfl, Outline.Describes.fresh follows.distinct found bounded childless⟩

end Follows

end CallTree

end Unfolding
