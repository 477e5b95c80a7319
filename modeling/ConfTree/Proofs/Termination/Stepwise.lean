import ConfTree.Proofs.Termination.Work
import ConfTree.Proofs.Refinement.Work

/-!
Work in which every call of a function and every operation takes one step (`Calls.stepwise`): one that counts for
ever comes to whatever it is cut off with, and all else is as in the work on a tree (`Calls.below_stepwise`). Where
no entry has modifiers, a depth that only depends on the cost of the work that is left is enough for it
(`Calls.stepwise_manages`).
-/
namespace ConfTree

open StoreM

/-- Whether a call counts for ever. -/
def Invoke.isEndless : Object → List Value → Bool
  | .function _ (.builtin f),args => Functions.isEndless f args
  | _,_ => false

/-- A call that counts for ever does not end. -/
theorem Invoke.object_endless {host : Host} {calls : Calls} {o : Object} {args : List Value} {keyword : Pairs} {s t : Store}
    {r : Except Thrown Value} (endless : isEndless o args = true) : ¬ Runs (object host calls o args keyword) s r t := by
  unfold isEndless at endless
  split at endless
  · next f =>
    cases f with
    | range =>
      intro run
      rw [Functions.isEndless] at endless
      cases bounds : Functions.rangeBounds args with
      | error issue =>
        rw [bounds] at endless
        cases endless
      | ok found =>
        rw [bounds] at endless
        have first : Runs (check (Functions.rangeBounds args)) s (.ok found) s := by rw [bounds]; rfl
        have counted := (Runs.bind_iff first).mp run
        dsimp only at counted
        rw [Option.isNone_iff_eq_none.mp endless] at counted
        exact Runs.unending_iff counted
    | _ => cases endless
  · cases endless

/-- Nor does an operation. -/
theorem Eval.operate_endless {op : BinaryOp} {v w : Value} {s t : Store} {r : Except Thrown Value}
    (endless : Operators.isEndless op v w = true) : ¬ Runs (operate op v w) s r t := by
  obtain ⟨⟨items,times⟩,repeats,counted⟩ := (Option.any_eq_true _ _).mp endless
  intro run
  unfold operate at run
  rw [repeats] at run
  dsimp only at run
  rw [Option.isNone_iff_eq_none.mp counted] at run
  exact Runs.unending_iff run

namespace Calls

variable {cut : StoreM Value} {host : Host}

/-- The work on a tree, to a depth of references; a call or operation that counts for ever is cut off. -/
def stepwise (cut : StoreM Value) (host : Host) : Nat → Calls
  | 0 => exhausted
  | depth + 1 => {
      resolve := fun id => Resolve.resolve host (stepwise cut host depth) id
      settle := fun id => Resolve.settle (stepwise cut host depth) id
      settled := fun id => Navigate.settled (stepwise cut host depth) id
      child := fun id selector => Navigate.child (stepwise cut host depth) id selector
      declaration := fun id => Resolve.declaration host (stepwise cut host depth) id
      apply := fun m id => Modify.apply host (stepwise cut host depth) m id
      invoke := fun o args keyword =>
        if Invoke.isEndless o args then cut else Invoke.object host (stepwise cut host depth) o args keyword
      operate := fun op v w => if Operators.isEndless op v w then cut else Eval.operate op v w }

/-- All that the work on a tree comes to, stepwise work comes to as well. -/
theorem below_stepwise (cut : StoreM Value) (host : Host) (depth : Nat) : (ofDepth host depth).Below (stepwise cut host depth) := by
  induction depth with
  | zero => exact .exhausted _
  | succ depth ih =>
    refine ⟨ih.resolve_step host,ih.settle_step,ih.settled_step,ih.child_step,ih.declaration_step host,ih.apply_step host,
      fun o args keyword s r t run => ?_,fun op v w s r t run => ?_⟩
    · cases endless : Invoke.isEndless o args with
      | true => exact absurd run (Invoke.object_endless endless)
      | false =>
        show Runs (if Invoke.isEndless o args then cut else _) s r t
        rw [endless]
        exact ih.object host o args keyword s r t run
    · cases endless : Operators.isEndless op v w with
      | true => exact absurd run (Eval.operate_endless endless)
      | false =>
        show Runs (if Operators.isEndless op v w then cut else _) s r t
        rw [endless]
        exact run

/-- What stepwise work to one depth comes to, it comes to as well to each greater depth. -/
theorem stepwise_le {depth deep : Nat} (le : depth ≤ deep) : (stepwise cut host depth).Below (stepwise cut host deep) := by
  induction depth generalizing deep with
  | zero => exact .exhausted _
  | succ depth ih =>
    obtain ⟨deep,rfl⟩ : ∃ n, deep = n + 1 := ⟨deep - 1,by omega⟩
    have below := ih (Nat.le_of_succ_le_succ le)
    exact ⟨below.resolve_step host,below.settle_step,below.settled_step,below.child_step,below.declaration_step host,
      below.apply_step host,fun o args keyword => .ite (.refl _) (below.object host o args keyword),fun _ _ _ => .refl _⟩

/-- Stepwise work ends where the work that is left costs so much, to a depth of five references for each part of that. -/
theorem stepwise_manages (host : Host) (b : Bounds) (quiet : Quiet cut) (n : Nat) {depth : Nat} (deep : 5 * (n + 1) ≤ depth) :
    (stepwise cut host depth).Manages b n := by
  induction n using Nat.strong_induction_on generalizing depth with
  | _ n ih =>
    obtain ⟨d,rfl⟩ : ∃ d, depth = d + 5 := ⟨depth - 5,by omega⟩
    -- each kind of work is needed at more than one depth, so it is shown for `i` references more than it takes
    have lower (i : Nat) (k : Nat) (less : k < n) : (stepwise cut host (d + i)).Manages b k := ih k less (by omega)
    have settle (i : Nat) (id : NodeId) : (Judgement.affordable b n).Holds ((stepwise cut host (d + i + 1)).settle id) :=
      Spending.settle_step (lower i) id
    have settled (i : Nat) (id : NodeId) : (Judgement.affordable b n).Holds ((stepwise cut host (d + i + 2)).settled id) :=
      Spending.settled_step (lower (i + 1)) (settle i) id
    have child (i : Nat) (id : NodeId) (selector : Selector) :
        (Judgement.affordable b n).Holds ((stepwise cut host (d + i + 3)).child id selector) :=
      Spending.child_step (lower (i + 2)) (settle (i + 1))
        (fun _ _ selector => Spending.childOf_completes (lower (i + 1)) (settle i) selector) id selector
    have resolve (i : Nat) (id : NodeId) : (Judgement.affordable b n).Holds ((stepwise cut host (d + i + 2)).resolve id) :=
      Spending.resolve_step (lower (i + 1)) (fun _ _ live => Spending.resolve_live (lower i) live) id
    have onTree (i : Nat) : (Judgement.affordable b n).OnTree (stepwise cut host (d + i + 3)) :=
      ⟨resolve (i + 1),settle (i + 2),settled (i + 1),child i⟩
    have invoke (i : Nat) (o : Object) (args : List Value) (keyword : Pairs) :
        (Judgement.affordable b n).Holds ((stepwise cut host (d + i + 4)).invoke o args keyword) := by
      show (Judgement.affordable b n).Holds (if Invoke.isEndless o args then cut else _)
      cases endless : Invoke.isEndless o args with
      | true => exact quiet.judged
      | false =>
        refine Judgement.object_holds (onTree i) host o args keyword fun id f same => ?_
        rw [same] at endless
        exact (Judgement.functions_quiet host endless keyword).judged
    have operate (i : Nat) (op : BinaryOp) (v w : Value) :
        (Judgement.affordable b n).Holds ((stepwise cut host (d + i + 4)).operate op v w) := by
      show (Judgement.affordable b n).Holds (if Operators.isEndless op v w then cut else _)
      cases endless : Operators.isEndless op v w with
      | true => exact quiet.judged
      | false => exact (Judgement.operate_quiet endless).judged
    have sound (i : Nat) : (Judgement.affordable b n).Sound (stepwise cut host (d + i + 4)) :=
      ⟨onTree (i + 1),Spending.requireSession_holds,invoke i,operate i⟩
    exact ⟨sound 1,fun s id affords => Spending.declares_step (sound 0) id affords⟩

end Calls
end ConfTree
