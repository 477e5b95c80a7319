import ConfTree.Fault.Basic
import ConfTree.Value.Equality

/-!
# Computations

An operation on values may fail, and it may make new collections, each with an identity of its
own. So a computation takes the next identity that is free, and gives a value and the identity that
is free after it, or a failure.
-/
namespace ConfTree

/-- How an operation fails. -/
inductive Failure where
  | cause (cause : Cause)
  /-- an error of the embedding program, known by its message alone -/
  | foreign (message : Text)
  /-- an issue whose words show a value; how an object is shown is not known here -/
  | showing (v : Value) (issue : Text → EvalIssue)

/-- A computation that may make new collections. -/
abbrev Compute := StateT Identity (Except Failure)

instance : MonadLift (Except EvalIssue) Compute where
  monadLift
    | .ok a => pure a
    | .error issue => throw (.cause (.eval issue))

namespace Compute

/-- Fails with an issue. -/
def refuse {α : Type} (issue : EvalIssue) : Compute α := throw (.cause (.eval issue))

/-- An identity that nothing has yet. -/
def fresh : Compute Identity := fun next => .ok (next,next + 1)

/-- A new list. -/
def list (items : List Value) : Compute Value := return .list (← fresh) items

/-- A new mapping. -/
def mapping (pairs : Pairs) : Compute Value := return .mapping (← fresh) pairs

/-- A new set of these values. -/
def set (items : List Value) : Compute Value := return .set (← fresh) (Value.members items)

end Compute
end ConfTree
