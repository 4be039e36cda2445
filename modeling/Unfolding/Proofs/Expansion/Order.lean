import Unfolding.Proofs.CallTree.Links
import Unfolding.Proofs.Generation

/-!
Trees are unfolded breadth first.

The calls of a linear-shift tree are listed in the order of their paths, those
of a divide-and-conquer tree by level and index.  In both orders earlier callers
make earlier calls, so callers stand in the order of the calls that they make.
-/

namespace Unfolding

variable {Key : Type}

/-- Earlier calls have earlier callers. -/
def Outline.BreadthFirst (outline : Outline Key) (keys : List Key) : Prop :=
  ∀ {slot other above otherAbove i j : Nat} {caller otherCaller : Key},
    i < outline.arity → j < outline.arity →
    keys[above]? = some caller → keys[otherAbove]? = some otherCaller →
    keys[slot]? = some (outline.child caller i) →
    keys[other]? = some (outline.child otherCaller j) → slot < other → above ≤ otherAbove

/-- An order of the keys that children inherit makes a listing breadth first. -/
theorem Outline.breadthFirst_of_pairwise {outline : Outline Key} {keys : List Key}
    {Before : Key → Key → Prop} (ordered : keys.Pairwise Before)
    (asymmetric : ∀ {key other}, Before key other → ¬ Before other key)
    (inherited : ∀ {key other i j}, i < outline.arity → j < outline.arity → Before key other →
      Before (outline.child key i) (outline.child other j)) : outline.BreadthFirst keys := by
  have before {slot other : Nat} {key otherKey : Key} (found : keys[slot]? = some key)
      (otherFound : keys[other]? = some otherKey) (earlier : slot < other) :
      Before key otherKey := by
    obtain ⟨inside, rfl⟩ := List.getElem?_eq_some_iff.mp found
    obtain ⟨otherInside, rfl⟩ := List.getElem?_eq_some_iff.mp otherFound
    exact List.pairwise_iff_getElem.mp ordered slot other inside otherInside earlier
  intro slot other above otherAbove i j caller otherCaller bounded otherBounded callerFound
    otherCallerFound found otherFound earlier
  apply Nat.le_of_not_lt
  intro swapped
  apply asymmetric (before found otherFound earlier)
  exact inherited otherBounded bounded (before otherCallerFound callerFound swapped)

namespace CallTree

variable {tree : CallTree}

def BreadthFirst (tree : CallTree) : Prop :=
  ∀ {slot other above otherAbove : Nat}, tree.parent? slot = some above →
    tree.parent? other = some otherAbove → slot < other → above ≤ otherAbove

theorem Follows.breadthFirst {outline : Outline Key} {keys : List Key}
    (follows : tree.Follows outline keys) (listed : outline.BreadthFirst keys) :
    tree.BreadthFirst := by
  have made {slot above : Nat} (parent : tree.parent? slot = some above) :
      ∃ caller i, i < outline.arity ∧ keys[above]? = some caller ∧
        keys[slot]? = some (outline.child caller i) := by
    obtain ⟨call, place, named⟩ := Option.bind_eq_some_iff.mp parent
    obtain ⟨key, found, described⟩ := follows.key_of_call place
    obtain ⟨caller, i, bounded, callerFound, rfl⟩ := (described.parent above).mp named
    exact ⟨caller, i, bounded, callerFound, found⟩
  intro slot other above otherAbove parent otherParent earlier
  obtain ⟨caller, i, bounded, callerFound, found⟩ := made parent
  obtain ⟨otherCaller, j, otherBounded, otherCallerFound, otherFound⟩ := made otherParent
  exact listed bounded otherBounded callerFound otherCallerFound found otherFound earlier

end CallTree

/-! ### The two families -/

theorem LinearShift.Sweep.breadthFirst {r : LinearShift} {first depth : Nat}
    {listed done waiting : List CallPath} (sweep : r.Sweep first depth listed done waiting) :
    (r.outline first).BreadthFirst listed :=
  Outline.breadthFirst_of_pairwise sweep.ordered
    (fun earlier => List.Shortlex.asymm.asymm _ _ earlier) fun _ _ earlier => earlier.concat _ _

namespace DivideConquer

/-- Rows from the top, each from its first call. -/
def Before (call other : Nat × Nat) : Prop :=
  call.1 < other.1 ∨ call.1 = other.1 ∧ call.2 < other.2

theorem pairwise_rowCalls (level count : Nat) : (rowCalls level count).Pairwise Before := by
  apply List.Pairwise.map _ _ List.pairwise_lt_range
  intro index other earlier
  exact .inr ⟨rfl, earlier⟩

theorem pairwise_callsThrough (r : DivideConquer) (last : Nat) :
    (r.callsThrough last).Pairwise Before := by
  induction last with
  | zero => exact pairwise_rowCalls 0 1
  | succ last inductionHypothesis =>
      apply List.pairwise_append.mpr
      refine ⟨inductionHypothesis, pairwise_rowCalls _ _, ?_⟩
      intro call member other otherMember
      obtain ⟨shallow, -⟩ := mem_callsThrough_iff.mp member
      obtain ⟨level, -⟩ := mem_rowCalls_iff.mp otherMember
      exact .inl (by omega)

theorem breadthFirst_callsThrough (r : DivideConquer) (initial : Float) (last : Nat) :
    (r.outline initial).BreadthFirst (r.callsThrough last) := by
  apply Outline.breadthFirst_of_pairwise (r.pairwise_callsThrough last)
  · unfold Before
    intro call other earlier later
    omega
  · rintro ⟨level, index⟩ ⟨otherLevel, otherIndex⟩ i j bounded _ earlier
    rcases earlier with above | ⟨same, smaller⟩
    · exact .inl (Nat.succ_lt_succ above)
    · refine .inr ⟨congrArg (· + 1) same, ?_⟩
      -- the block of the later caller begins where that of the earlier one ends, or behind it
      change index * r.branching.toNat + i < otherIndex * r.branching.toNat + j
      have blocks : (index + 1) * r.branching.toNat ≤ otherIndex * r.branching.toNat :=
        Nat.mul_le_mul_right _ smaller
      rw [Nat.succ_mul] at blocks
      change i < r.branching.toNat at bounded
      omega

theorem callsThrough_ne_nil (r : DivideConquer) (last : Nat) : r.callsThrough last ≠ [] :=
  List.ne_nil_of_mem (a := (0, 0)) (mem_callsThrough_iff.mpr ⟨Nat.zero_le last, Nat.one_pos⟩)

end DivideConquer

/-! ### Unfolded trees -/

theorem Recurrence.exists_follows_of_expand {r : Recurrence} {initial : Float} {depth : Nat}
    {nodeLimit : UInt64} {expansion : Expansion}
    (run : r.expand initial depth nodeLimit = .ok expansion) :
    ∃ (Key : Type) (outline : Outline Key) (keys : List Key),
      expansion.tree.Follows outline keys ∧ keys ≠ [] ∧ outline.BreadthFirst keys := by
  cases r with
  | divideConquer r =>
      rcases (r.outcome_of_expand run).exists_last with ⟨last, follows, -⟩
      exact ⟨_, _, _, follows, r.callsThrough_ne_nil last, r.breadthFirst_callsThrough initial last⟩
  | linearShift r =>
      rcases (r.outcome_of_expand run).exists_sweep with ⟨listed, done, waiting, sweep, follows, -⟩
      exact ⟨_, _, _, follows, List.ne_nil_of_mem sweep.nil_mem, sweep.breadthFirst⟩

end Unfolding
