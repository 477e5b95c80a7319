import ConfTree.Modifier.Apply

/-!
# Resolution

A node's value is computed at most once, and so are the modifiers of an entry applied; a failure is
remembered and thrown again. A node that is met again while it is being worked on is a cycle.
Resolution, settling and calls refer to each other: they are tied together to a depth (`Calls.ofDepth`).
-/
namespace ConfTree.Resolve

open StoreM

variable (host : Host) (calls : Calls)

/-! ## Nodes being worked on -/

def enter (id : NodeId) : StoreM Unit :=
  modifySession fun session => { session with busy := session.busy ++ [id] }

/-- The list without the last occurrence of an element. -/
def eraseLast (busy : List NodeId) (id : NodeId) : List NodeId := (busy.reverse.erase id).reverse

def leave (id : NodeId) : StoreM Unit :=
  modifySession fun session => { session with busy := eraseLast session.busy id }

/-- The nodes from the first visit of a node on, closed by the node. -/
def cycleNodes (busy : List NodeId) (id : NodeId) : List NodeId :=
  match busy.dropWhile (· != id) with
  | [] => [id,id]
  | path => path ++ [id]

/-- Reports that a node is met again while it is being worked on. -/
def reportCycle {α : Type} (id : NodeId) : StoreM α := do
  requireSession id
  let chain ← (cycleNodes (← getSession).busy id).mapM nameOf
  let fault ← newFault (.cycle chain none)
  locate fault id
  throw (.fault fault)

/-- Does work on a node. A failure is located at the node and remembered, and then thrown; what fails
is made a fault by `wrap`. -/
def guarded {α : Type} (id : NodeId) (wrap : Text → Cause) (remember : FaultId → StoreM Unit)
    (work : StoreM α) : StoreM α := do
  enter id
  cleaningUp (tryCatch work fun thrown => do
    let fault ← asFault wrap thrown
    locate fault id
    remember fault
    throw (.fault fault)) (leave id)

/-! ## Settling -/

/-- Applies the overrides of items, unless that was done. -/
def settleSequence (id : NodeId) (items declared : List NodeId) : StoreM Unit := do
  modifyBody id fun _ => .sequence items declared true
  items.forM fun item => discard (applyOverride item)

/-- Modifies entry after entry, as long as the mapping was not replaced. -/
def settleEntries (mapping : NodeId) : List NodeId → StoreM Unit
  | [] => return ()
  | entry :: rest => do
    if (← getNode mapping).replacedBy.isSome then return ()
    calls.settle entry
    settleEntries mapping rest

/-- Evaluates the declaration of an entry once. -/
def declaration (id : NodeId) : StoreM Declaration := do
  match (← getNode id).body with
  | .entry _ _ _ _ _ (some evaluated) => return evaluated
  | .entry head .. =>
    requireSession id
    let locals ← Expression.locals ((← get).entryValue id)
    let own ← Expression.declaration host calls head.key.source locals
    let merged ← match head.inherited with
      | none => pure own
      | some base => do
        let base ← calls.declaration base
        compute fun next => .ok (own.merge next base,next + base.modifiers.length)
    modifyBody id fun
      | .entry head slot declared renamed modification _ =>
        .entry head slot declared renamed modification (some merged)
      | body => body
    return merged
  | _ => return ⟨none,[]⟩

def setModification (id : NodeId) (state : Progress Unit) : StoreM Unit :=
  modifyBody id fun
    | .entry head slot declared renamed _ evaluated => .entry head slot declared renamed state evaluated
    | body => body

/-- Applies the override of an entry and its modifiers, and attaches its types to the node that then
is its value. -/
def applyDeclaration (id slot : NodeId) : StoreM Unit := do
  let node ← applyOverride slot
  let declared ← calls.declaration id
  let node ← Modify.applyAll calls node declared.modifiers
  if let some types := declared.types then
    modifyNode node fun n => { n with types := some types }
  setModification id (.done ())
  if !declared.modifiers.isEmpty then discard (nameOf id)

/-- Modifies the value of an entry, unless that was done. -/
def modifyEntry (id slot : NodeId) : Progress Unit → StoreM Unit
  | .done _ => return ()
  | .failed fault => throw (.fault fault)
  | .active => reportCycle id
  | .pending => do
    requireSession id
    setModification id .active
    guarded id (fun message => .construction (.reported message) none)
      (fun fault => setModification id (.failed fault))
      (applyDeclaration calls id slot)

/-- Applies the overrides and modifiers below a node. -/
def settle (id : NodeId) : StoreM Unit := do
  match (← getNode id).body with
  | .scalar .. => return ()
  | .sequence items declared isSettled => if !isSettled then settleSequence id items declared
  | .mapping entries isSettled =>
    if !isSettled then
      modifyBody id fun _ => .mapping entries true
      settleEntries calls id entries
  | .entry _ slot _ _ modification _ => modifyEntry calls id slot modification

/-! ## Values -/

/-- A text that is no expression, the mark that makes it literal dropped; or the source that it is. -/
def classify (settings : Settings) (t : Text) : Text ⊕ Text :=
  if t.startsWith (settings.escapePrefix ++ settings.interpolationPrefix) then
    .inl (t.drop settings.escapePrefix.length)
  else if t.startsWith settings.interpolationPrefix then
    .inr (t.drop settings.interpolationPrefix.length).trim
  else .inl t

/-- The value of a scalar: an expression is evaluated, and a node it leads to stands for its value. -/
def scalarValue (id : NodeId) (raw : Literal) (override : Option Literal) : StoreM Value := do
  let node ← getNode id
  if node.isRequired && !node.isOverridden && raw == .null then throwCause (.requirement none)
  match override.getD raw with
  | .text t => do
    requireSession id
    match classify (← getSession).settings t with
    | .inl literal => return .text literal
    | .inr source =>
      match ← Expression.evaluate host calls source (← Expression.locals id) with
      | .object (.node target _) => calls.resolve target
      | v => return v
  | literal => return literal.value

/-- The values of the items that are not hidden. -/
def sequenceValue (items : List NodeId) : StoreM Value := do
  let s ← get
  let shown := (items.map s.current).filter fun item => !(s.node item).isHidden
  let values ← shown.mapM calls.resolve
  compute (Compute.list values)

/-- The pairs of the entries whose values are not hidden, after those of the entries before;
`emitted` gives each key with that of its entry. -/
def pairsOf (emitted : List (Text × Text)) (pairs : Pairs) : List NodeId → StoreM Pairs
  | [] => return pairs
  | entry :: rest => do
    let value ← Navigate.entryValue calls entry
    let s ← get
    if (s.node value).isHidden then pairsOf emitted pairs rest
    else
      let key := s.exposedKey entry
      if let some previous := emitted.lookup key then
        throwCause (.construction (.emittedTwice previous (s.entryKey entry) key) none)
      let v ← calls.resolve value
      pairsOf ((key,s.entryKey entry) :: emitted) (Pairs.insert pairs key v) rest

/-- The key and value of an entry. -/
def entryPair (id : NodeId) : StoreM Value := do
  let key := (← get).exposedKey id
  let v ← calls.resolve (← Navigate.entryValue calls id)
  compute (Compute.list [.text key,v])

/-- Computes the value of a node. -/
def computeValue (id : NodeId) : StoreM Value := do
  match (← getNode id).body with
  | .scalar raw override => scalarValue host calls id raw override
  | .sequence items .. => sequenceValue calls items
  | .mapping entries _ => do
    let pairs ← pairsOf calls [] [] entries
    compute (Compute.mapping pairs)
  | .entry .. => entryPair calls id

/-- Passes a value through a transform. -/
def transform (v : Value) : Transform → StoreM Value
  | .call function => calls.invoke function [v] []
  | .among values => do
    Modify.checkAmong values v
    return v
  | .host name => compute (host.transform name v)

/-- Passes the value of a node through its transforms and checks it against its types. -/
def finish (id : NodeId) (computed : Value) : StoreM Value := do
  let v ← (← getNode id).transforms.foldlM (transform host calls) computed
  match (← getNode id).types with
  | some types =>
    if !types.isEmpty && !types.any fun type => type.accepts v then
      throwCause (.typeConstraint (types.map TypeConstraint.name) v.typeName)
  | none => pure ()
  return v

/-- Settles a node and computes its value, or that of what took its place meanwhile. -/
def work (id : NodeId) : StoreM Value := do
  calls.settle id
  let now ← current id
  let v ← if now = id then do finish host calls id (← computeValue host calls id) else calls.resolve now
  modifyNode id fun n => { n with resolution := .done v }
  return v

/-- The value of a node, computed at most once. -/
def resolve (id : NodeId) : StoreM Value := do
  let now ← current id
  if now ≠ id then calls.resolve now
  else match (← getNode id).resolution with
    | .done v => return v
    | .failed fault => throw (.fault fault)
    | .active => reportCycle id
    | .pending => do
      requireSession id
      modifyNode id fun n => { n with resolution := .active }
      guarded id .resolution (fun fault => modifyNode id fun n => { n with resolution := .failed fault })
        (work host calls id)

end ConfTree.Resolve

namespace ConfTree

/-- The work on a tree, to a depth of references. -/
def Calls.ofDepth (host : Host) : Nat → Calls
  | 0 => exhausted
  | depth + 1 => {
      resolve := fun id => Resolve.resolve host (ofDepth host depth) id
      settle := fun id => Resolve.settle (ofDepth host depth) id
      settled := fun id => Navigate.settled (ofDepth host depth) id
      child := fun id selector => Navigate.child (ofDepth host depth) id selector
      declaration := fun id => Resolve.declaration host (ofDepth host depth) id
      apply := fun m id => Modify.apply host (ofDepth host depth) m id
      invoke := fun o args keyword => Invoke.object host (ofDepth host depth) o args keyword
      operate := Eval.operate }

end ConfTree
