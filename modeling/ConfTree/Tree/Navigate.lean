import ConfTree.Address
import ConfTree.Eval.Operators
import ConfTree.Tree.Edit

/-!
# Navigation

From a node to its children, its containers, and along an address. Before a child is selected, the
overrides and modifiers below its container are applied; how that is done is a parameter (`Calls`).
-/
namespace ConfTree

/-- The work on the tree that refers to other work of the same kind. -/
structure Calls where
  /-- computes the value of a node -/
  resolve : NodeId → StoreM Value
  /-- applies the overrides and modifiers below a node -/
  settle : NodeId → StoreM Unit
  /-- settles a node and what takes its place meanwhile, and gives the node that stands there then -/
  settled : NodeId → StoreM NodeId
  /-- selects a child of a node -/
  child : NodeId → Selector → StoreM NodeId
  /-- evaluates the declaration of an entry, merged with the one it inherits -/
  declaration : NodeId → StoreM Declaration
  /-- applies a modifier to a node; gives the node that was put in its place, if one was -/
  apply : ModifierObject → NodeId → StoreM (Option NodeId)
  /-- calls an object -/
  invoke : Object → List Value → Pairs → StoreM Value
  /-- does an operation on two values -/
  operate : BinaryOp → Value → Value → StoreM Value

namespace Calls

/-- The work done with no depth left: none of it ends. -/
def exhausted : Calls where
  resolve _ := StoreM.unending
  settle _ := StoreM.unending
  settled _ := StoreM.unending
  child _ _ := StoreM.unending
  declaration _ := StoreM.unending
  apply _ _ := StoreM.unending
  invoke _ _ _ := StoreM.unending
  operate _ _ _ := StoreM.unending

end Calls

namespace Navigate

open StoreM

variable (calls : Calls)

/-- Settles what stands in a node's place, and goes on while that is replaced. -/
def settled (id : NodeId) : StoreM NodeId := do
  let node ← current id
  calls.settle node
  if (← getNode node).replacedBy.isSome then calls.settled node else return node

/-- The modified value of an entry. -/
def entryValue (entry : NodeId) : StoreM NodeId := do
  calls.settle entry
  return (← get).entryValue entry

/-- The place of an index in a sequence. -/
def itemPlace (sequence : NodeId) (length : Nat) (index : Number) : StoreM Nat := do
  match index.int? with
  | none => throwCause (.address (.sequenceSelect (.index index) (← nameOf sequence)))
  | some i =>
    let place := if i < 0 then i + length else i
    if place < 0 || (length : Int) ≤ place then
      throwCause (.address (.sequenceRange index (← nameOf sequence) length))
    return place.toNat

/-- A mapping's name as messages give it. -/
def mappingName (name : Text) : Text :=
  if name.isEmpty then "root mapping" else .concat ["mapping '",name,"'"]

/-- The entry that a key selects, an asterisk before it dropped; with it, whether there was one. -/
def selectEntry (mapping : NodeId) (selector : Text) : StoreM (NodeId × Bool) := do
  let name := mappingName (← nameOf mapping)
  let entryOnly := selector.startsWith "*"
  let key := if entryOnly then selector.drop 1 else selector
  match (← get).findEntry mapping key with
  | some entry => return (entry,entryOnly)
  | none => throwCause (.address (.missingKey selector key name))

/-- Selects a child of a node that is settled. -/
def selectChild (node : NodeId) (selector : Selector) : StoreM NodeId := do
  match (← getNode node).body, selector with
  | .scalar .., _ => throwCause (.address (.scalarSelect selector (← nameOf node)))
  | .sequence .., .key _ => throwCause (.address (.sequenceSelect selector (← nameOf node)))
  | .sequence items .., .index index =>
    let place ← itemPlace node items.length index
    current (items[place]?.getD node)
  | .mapping .., .index index =>
    throwCause (.address (.mappingIndex index (mappingName (← nameOf node))))
  | .mapping .., .key key =>
    let (entry,entryOnly) ← selectEntry node key
    if entryOnly then return entry
    entryValue calls entry
  | .entry .., _ => do calls.child (← entryValue calls node) selector

/-- Selects a child of a node. -/
def child (id : NodeId) (selector : Selector) : StoreM NodeId := do
  selectChild calls (← settled calls id) selector

/-- The container above a node; `address` is what the step belongs to. -/
def ascend (address : Text) (id : NodeId) : StoreM NodeId := do
  let s ← get
  let parent := s.above? id
  let container := match parent with
    | some p => if s.kind p = .entry then s.above? p else some p
    | none => none
  match container with
  | some c => return c
  | none => throwCause (.address (.pastRoot address))

/-- Goes up a number of containers. -/
def ascendBy (address : Text) : Nat → NodeId → StoreM NodeId
  | 0, id => return id
  | levels + 1, id => do ascendBy address levels (← ascend address id)

/-- One step of an address. -/
def step (address : Text) (id : NodeId) : Step → StoreM NodeId
  | .ascend levels => ascendBy address levels id
  | .select selector => calls.child id selector

/-- The node that an address leads to. -/
def fromAddress (id : NodeId) (address : Text) : StoreM NodeId := do
  let start ← current id
  match Address.parse address with
  | .ok steps => steps.foldlM (step calls address) start
  | .error issue => throwCause (.address issue)

/-- The container a number of levels up; a report quotes the points that would lead there. -/
def ancestor (id : NodeId) (levels : Nat) : StoreM NodeId := do
  let start ← current id
  if levels ≥ Operators.maxTextLength then throw (.foreign "Invalid string length")
  ascendBy (.replicate (levels + 1) ".") levels start

end Navigate
end ConfTree
