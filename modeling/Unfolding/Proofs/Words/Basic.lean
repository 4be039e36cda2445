import Unfolding.CallTree.Basic

/-!
Computations over words of fixed width.

Every operation that a machine carries out on words, and that could go wrong
there, is checked: sums and differences that leave their width, divisions by
zero, entries outside an array.  Links between calls are words as well, with one
word set aside for a link to nothing, and it is checked that no other link is
this word.
-/

namespace Unfolding.Words

/-- Why a computation over words stops. -/
inductive Trap where
  /-- A request is refused, or a tree is misused. -/
  | fault (fault : Fault)
  | overflow
  | divisionByZero
  | outOfRange (index size : Nat)
  /-- A link to a call would read as a link to nothing. -/
  | lostLink

/-- A computation that stops at the first operation that goes wrong. -/
abbrev Checked := Except Trap

@[simp]
theorem ok_bind {α β : Type} (value : α) (next : α → Checked β) :
    (Except.ok value >>= next) = next value := rfl

@[simp]
theorem pure_eq_ok {α : Type} (value : α) : (pure value : Checked α) = .ok value := rfl

theorem exists_of_bind {α β : Type} {first : Checked α} {next : α → Checked β} {result : β}
    (run : first >>= next = .ok result) : ∃ value, first = .ok value ∧ next value = .ok result := by
  cases first with
  | error trap => cases run
  | ok value => exact ⟨value, rfl, run⟩

/-! ### Arithmetic -/

def add (left right : UInt32) : Checked UInt32 :=
  if left.toNat + right.toNat < UInt32.size then .ok (left + right) else .error .overflow

def sub (left right : UInt32) : Checked UInt32 :=
  if right.toNat ≤ left.toNat then .ok (left - right) else .error .overflow

def addLong (left right : UInt64) : Checked UInt64 :=
  if left.toNat + right.toNat < UInt64.size then .ok (left + right) else .error .overflow

def divLong (left right : UInt64) : Checked UInt64 :=
  if right = 0 then .error .divisionByZero else .ok (left / right)

/-- The product of two words, where it is one. -/
def mulLong? (left right : UInt64) : Option UInt64 :=
  if left.toNat * right.toNat < UInt64.size then some (left * right) else none

def subSigned (left right : Int64) : Checked Int64 :=
  if Int64.minValue.toInt ≤ left.toInt - right.toInt ∧
      left.toInt - right.toInt ≤ Int64.maxValue.toInt then .ok (left - right)
  else .error .overflow

/-- A long word as a short one, where it is short. -/
def narrow? (word : UInt64) : Option UInt32 :=
  if word.toNat < UInt32.size then some word.toUInt32 else none

theorem toNat_ofNat {n : Nat} (fits : n < UInt32.size) : (UInt32.ofNat n).toNat = n :=
  UInt32.toNat_ofNat_of_lt' fits

theorem toNat_ofNat_long {n : Nat} (fits : n < UInt64.size) : (UInt64.ofNat n).toNat = n :=
  UInt64.toNat_ofNat_of_lt' fits

theorem add_ofNat {left right : Nat} (fits : left + right < UInt32.size) :
    add (.ofNat left) (.ofNat right) = .ok (.ofNat (left + right)) := by
  rw [add, toNat_ofNat (by omega), toNat_ofNat (by omega), if_pos fits, UInt32.ofNat_add]

theorem add_one {n : Nat} (fits : n + 1 < UInt32.size) : add (.ofNat n) 1 = .ok (.ofNat (n + 1)) :=
  add_ofNat fits

theorem sub_ofNat {left right : Nat} (fits : left < UInt32.size) (ordered : right ≤ left) :
    sub (.ofNat left) (.ofNat right) = .ok (.ofNat (left - right)) := by
  rw [sub, toNat_ofNat fits, toNat_ofNat (by omega), if_pos ordered, UInt32.ofNat_sub ordered]

theorem toNat_of_add {left right sum : UInt32} (added : add left right = .ok sum) :
    sum.toNat = left.toNat + right.toNat := by
  unfold add at added
  split at added
  · rename_i fits
    cases added
    rw [UInt32.toNat_add, Nat.mod_eq_of_lt fits]
  · cases added

theorem toNat_of_addLong {left right sum : UInt64} (added : addLong left right = .ok sum) :
    sum.toNat = left.toNat + right.toNat := by
  unfold addLong at added
  split at added
  · rename_i fits
    cases added
    rw [UInt64.toNat_add, Nat.mod_eq_of_lt fits]
  · cases added

/-! ### Arrays -/

section Arrays

variable {α β : Type}

def read (items : Array α) (index : Nat) : Checked α :=
  match items[index]? with
  | some item => .ok item
  | none => .error (.outOfRange index items.size)

def write (items : Array α) (index : Nat) (item : α) : Checked (Array α) :=
  if index < items.size then .ok (items.setIfInBounds index item)
  else .error (.outOfRange index items.size)

theorem read_eq_ok {items : Array α} {index : Nat} {item : α} (found : items[index]? = some item) :
    read items index = .ok item := by
  rw [read, found]

theorem setIfInBounds_same {items : Array α} {index : Nat} {item : α}
    (found : items[index]? = some item) : items.setIfInBounds index item = items := by
  apply Array.ext_getElem?
  intro other
  rw [Array.getElem?_setIfInBounds]
  by_cases here : index = other
  · subst here
    rw [if_pos rfl, if_pos (Array.getElem?_eq_some_iff.mp found).1, found]
  · rw [if_neg here]

theorem write_eq_ok {items : Array α} {index : Nat} (inside : index < items.size) (item : α) :
    write items index item = .ok (items.setIfInBounds index item) :=
  if_pos inside

end Arrays

/-! ### Links -/

/-- The word for a link to nothing. -/
def noSlot : UInt32 := .ofNat CallTree.capacity

/-- A word to be stored as a link to a call. -/
def link (slot : UInt32) : Checked UInt32 :=
  if slot = noSlot then .error .lostLink else .ok slot

/-- The word for a link. -/
def linkWord : Option Nat → UInt32
  | none => noSlot
  | some slot => .ofNat slot

theorem ofNat_ne_noSlot {slot : Nat} (inside : slot < CallTree.capacity) :
    UInt32.ofNat slot ≠ noSlot := by
  intro same
  have values := congrArg UInt32.toNat same
  rw [toNat_ofNat (Nat.lt_trans inside (by decide)), noSlot, toNat_ofNat (by decide)] at values
  exact Nat.ne_of_lt inside values

theorem link_ofNat {slot : Nat} (inside : slot < CallTree.capacity) :
    link (.ofNat slot) = .ok (.ofNat slot) :=
  if_neg (ofNat_ne_noSlot inside)

/-! ### Loops -/

section Loops

variable {σ : Type}

/-- A loop upwards runs through if every turn leads to the next state. -/
theorem foldlM_range_eq_ok {turn : σ → Nat → Checked σ} {count : Nat} (state : Nat → σ)
    (turns : ∀ slot < count, turn (state slot) slot = .ok (state (slot + 1))) :
    (List.range count).foldlM turn (state 0) = .ok (state count) := by
  induction count with
  | zero => rfl
  | succ count inductionHypothesis =>
      rw [List.range_succ, List.foldlM_append,
        inductionHypothesis fun slot inside => turns slot (Nat.lt_succ_of_lt inside)]
      change [count].foldlM turn (state count) = _
      rw [List.foldlM_cons, turns count (Nat.lt_succ_self count)]
      rfl

/-- So does a loop downwards. -/
theorem foldlM_reverse_range_eq_ok {turn : σ → Nat → Checked σ} {count : Nat} (state : Nat → σ)
    (turns : ∀ slot < count, turn (state (slot + 1)) slot = .ok (state slot)) :
    (List.range count).reverse.foldlM turn (state count) = .ok (state 0) := by
  induction count with
  | zero => rfl
  | succ count inductionHypothesis =>
      rw [List.range_succ, List.reverse_append, List.reverse_singleton, List.singleton_append,
        List.foldlM_cons, turns count (Nat.lt_succ_self count)]
      exact inductionHypothesis fun slot inside => turns slot (Nat.lt_succ_of_lt inside)

/-- A computation for each item succeeds if all of them do. -/
theorem mapM_eq_ok {α β : Type} {items : List α} {compute : α → Checked β} {value : α → β}
    (computed : ∀ item ∈ items, compute item = .ok (value item)) :
    items.mapM compute = .ok (items.map value) := by
  induction items with
  | nil => rfl
  | cons item items inductionHypothesis =>
      rw [List.forall_mem_cons] at computed
      rw [List.mapM_cons, computed.1, ok_bind, inductionHypothesis computed.2]
      rfl

/-- So does a computation for each slot, with the items that are found there. -/
theorem mapM_range_eq_ok {β : Type} {items : Array β} {compute : Nat → Checked β} {count : Nat}
    (sized : items.size = count)
    (computed : ∀ slot item, items[slot]? = some item → compute slot = .ok item) :
    (List.range count).mapM compute = .ok items.toList := by
  subst sized
  cases first : items[0]? with
  | none =>
      obtain rfl := Array.eq_empty_of_size_eq_zero
        (Nat.le_zero.mp (Array.getElem?_eq_none_iff.mp first))
      rfl
  | some unknown =>
      have found : ∀ slot < items.size, items[slot]? = some (items.getD slot unknown) := by
        intro slot inside
        rw [Array.getD_eq_getD_getElem?, Array.getElem?_eq_getElem inside, Option.getD_some]
      have listed : (List.range items.size).map (items.getD · unknown) = items.toList := by
        apply List.ext_getElem?
        intro slot
        by_cases inside : slot < items.size
        · rw [List.getElem?_map, List.getElem?_range inside, Option.map_some, Array.getElem?_toList,
            found slot inside]
        · simp [inside]
      rw [← listed]
      apply mapM_eq_ok
      intro slot member
      exact computed slot _ (found slot (List.mem_range.mp member))

end Loops

end Unfolding.Words
