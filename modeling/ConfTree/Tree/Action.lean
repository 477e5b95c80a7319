import ConfTree.Eval.Compute
import ConfTree.Tree.Store
import ConfTree.Value.Display

/-!
# Actions

An action works on the store. It gives a result, or throws, or does not come to an end within the
depth that it was given; in that last case nothing can be said of the store. What it throws is a
fault of the store, which is one and the same each time it is thrown again, or an error of the
embedding program.
-/
namespace ConfTree

/-- What an action can throw. -/
inductive Thrown where
  | fault (id : FaultId)
  | foreign (message : Text)

/-- A step of work on the store. -/
abbrev StoreM := ExceptT Thrown (StateT Store Option)

namespace StoreM

/-- The outcome of an action that does not end. -/
def unending {α : Type} : StoreM α := ExceptT.mk fun _ => none

/-- Reports a fault. -/
def newFault (cause : Cause) : StoreM FaultId := do
  let s ← get
  set { s with faults := s.faults.push (.ofCause cause) }
  return s.faults.size

/-- Reports a fault and throws it. -/
def throwCause {α : Type} (cause : Cause) : StoreM α := do throw (.fault (← newFault cause))

/-- A result, or its cause thrown. -/
def orThrow {α : Type} : Except Cause α → StoreM α
  | .ok a => pure a
  | .error cause => throwCause cause

/-- Does `cleanup` after an action, whether it throws or not. -/
def cleaningUp {α : Type} (action : StoreM α) (cleanup : StoreM Unit) : StoreM α := do
  let result ← tryCatch (Except.ok <$> action) fun thrown => pure (.error thrown)
  cleanup
  match result with
  | .ok a => pure a
  | .error thrown => throw thrown

/-! ## Reading and writing nodes -/

def getNode (id : NodeId) : StoreM Node := return (← get).node id

def kindOf (id : NodeId) : StoreM NodeKind := return (← get).kind id

def current (id : NodeId) : StoreM NodeId := return (← get).current id

def getSession : StoreM Session := return (← get).session

def modifySession (f : Session → Session) : StoreM Unit := modify fun s => { s with session := f s.session }

def modifyNode (id : NodeId) (f : Node → Node) : StoreM Unit :=
  modify fun s => { s with nodes := s.nodes.modify id f }

def modifyBody (id : NodeId) (f : Body → Body) : StoreM Unit :=
  modifyNode id fun n => { n with body := f n.body }

/-- Adds a node to the store. -/
def newNode (n : Node) : StoreM NodeId := do
  let s ← get
  set { s with nodes := s.nodes.push n }
  return s.nodes.size

/-- The name of a node. Where the containers go in a circle, the stack runs out over it. -/
def nameOf (id : NodeId) : StoreM Text := do
  match (← get).name id with
  | .ok name => pure name
  | .error .endless => throw (.foreign AddressIssue.endless.message)
  | .error issue => throwCause (.address issue)

/-- The node as a value. -/
def nodeValue (id : NodeId) : StoreM Value := return .object (.node id (← kindOf id))

/-- Throws unless a node stands in the session's tree; a search upward that goes in a circle does not end. -/
def requireSession (id : NodeId) : StoreM Unit := do
  match (← get).top? id with
  | none => unending
  | some _ =>
    unless (← get).isBound id do
      throwCause (.resolution (.concat ["Node '",← nameOf id,"' is not attached to a configuration"]))

/-! ## Values -/

/-- The text of a node: its kind and its name. -/
def nodeText (id : NodeId) : StoreM Text := do
  let name ← nameOf id
  return .concat ["<",(← kindOf id).name," ",displayAddress name,">"]

/-- How an object is shown. -/
def objectText : Object → StoreM Text
  | .node id _ => nodeText id
  | o => pure o.text

/-- The display of a value. -/
def display (v : Value) : StoreM Text := v.displayWith objectText

/-- The text of a value. -/
def textOf (v : Value) : StoreM Text := v.textWith objectText

def throwFailure {α : Type} : Failure → StoreM α
  | .cause cause => throwCause cause
  | .foreign message => throw (.foreign message)
  | .showing v issue => do throwCause (.eval (issue (← display v)))

/-- Does a computation, with the identities of the store. -/
def compute {α : Type} (c : Compute α) : StoreM α := do
  let s ← get
  match c s.nextIdentity with
  | .ok (a,next) =>
    set { s with nextIdentity := next }
    return a
  | .error failure => throwFailure failure

/-- A result of an expression, or its issue thrown. -/
def check {α : Type} (r : Except EvalIssue α) : StoreM α := compute (liftM r)

/-- Throws an issue of an expression. -/
def refuse {α : Type} (issue : EvalIssue) : StoreM α := throwCause (.eval issue)

/-! ## Faults on their way -/

/-- What was thrown as a fault; an error of the embedding program becomes one of the given cause. -/
def asFault (cause : Text → Cause) : Thrown → StoreM FaultId
  | .fault id => pure id
  | .foreign message => newFault (cause message)

/-- Notes that a fault passed a node. -/
def locate (fault : FaultId) (id : NodeId) : StoreM Unit := do
  let name ← nameOf id
  let kind ← kindOf id
  modify fun s => { s with faults := s.faults.modify fault (·.locate name kind.name) }

end StoreM
end ConfTree
