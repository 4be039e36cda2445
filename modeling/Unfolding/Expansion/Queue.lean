/-!
First-in, first-out queues.
-/

namespace Unfolding

/-- The items of `front`, then those of `back` from its end. -/
structure Queue (α : Type) where
  front : List α := []
  back : List α := []

namespace Queue

variable {α : Type}

/-- The items in the order in which they leave. -/
def toList (queue : Queue α) : List α := queue.front ++ queue.back.reverse

def push (queue : Queue α) (item : α) : Queue α :=
  { queue with back := item :: queue.back }

/-- The item that leaves first, and the queue without it. -/
def pop? (queue : Queue α) : Option (α × Queue α) :=
  match queue.front with
  | item :: front => some (item, { queue with front })
  | [] =>
      match queue.back.reverse with
      | [] => none
      | item :: front => some (item, { front })

@[simp] theorem toList_empty : ({} : Queue α).toList = [] := rfl

@[simp] theorem toList_push (queue : Queue α) (item : α) :
    (queue.push item).toList = queue.toList ++ [item] := by
  simp [toList, push]

theorem pop?_eq_none_iff (queue : Queue α) : queue.pop? = none ↔ queue.toList = [] := by
  unfold pop? toList
  split
  · simp_all
  · split <;> simp_all

theorem toList_of_pop? {queue rest : Queue α} {item : α} (popped : queue.pop? = some (item, rest)) :
    queue.toList = item :: rest.toList := by
  unfold pop? at popped
  unfold toList
  split at popped
  · cases popped
    simp_all
  · split at popped
    · cases popped
    · cases popped
      simp_all

end Queue

end Unfolding
