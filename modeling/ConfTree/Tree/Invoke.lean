import ConfTree.Modifier.Factory
import ConfTree.Tree.Navigate

/-!
# Calls and indices of objects

What an object does that stands before an argument list or an index.
-/
namespace ConfTree.Invoke

open StoreM Functions

variable (host : Host) (calls : Calls)

/-- The address that a call is given; none is the empty one. -/
def addressArgument (name : Text) (args : List Value) : Except EvalIssue Text :=
  if args.length > 1 then .error (.atMostOne name args.length)
  else match argument args 0 with
    | .undefined => .ok .empty
    | .text address => .ok address
    | v => .error (.expectsAddress name v.typeName)

/-! ## Functions of nodes -/

/-- The current node that a value is. -/
def expectNode (f : Builtin) : Value → StoreM NodeId
  | .object (.node id _) => current id
  | v => refuse (.expectsNode f.name v.typeName)

/-- A number of levels. -/
def expectLevels (f : Builtin) (v : Value) : Except EvalIssue Nat :=
  match v with
  | .number n =>
    match n.int? with
    | some i => if i < 1 then .error (.expectsLevels f.name v.typeName) else .ok i.toNat
    | none => .error (.expectsLevels f.name v.typeName)
  | _ => .error (.expectsLevels f.name v.typeName)

/-- The container of a node, some levels up. -/
def parent (args : List Value) (keyword : Pairs) : StoreM Value := do
  check (Factory.arity Builtin.parent.name args 1 2)
  let node ← expectNode .parent (argument args 0)
  let levels ← check (expectLevels .parent (second args keyword "levels" (.ofNat 1)))
  nodeValue (← Navigate.ancestor node levels)

/-- The only child of a mapping or sequence. -/
def child (args : List Value) : StoreM Value := do
  if args.length ≠ 1 then refuse (.singleArgument Builtin.child.name args.length)
  let node ← calls.settled (← expectNode .child (argument args 0))
  let s ← get
  match (s.node node).body with
  | .mapping .. =>
    match s.keys node with
    | [key] => do nodeValue (← calls.child node (.key key))
    | keys => refuse (.notOneChild NodeKind.mapping.name keys.length)
  | .sequence items .. =>
    if items.length ≠ 1 then refuse (.notOneChild NodeKind.sequence.name items.length)
    nodeValue (← calls.child node (.index .zero))
  | _ => refuse (.childOf (← nodeValue node).typeName)

/-- What a scalar was given, its override if it has one. -/
def rawValue (args : List Value) : StoreM Value := do
  if args.length ≠ 1 then refuse (.singleArgument Builtin.rawValue.name args.length)
  let node ← expectNode .rawValue (argument args 0)
  match (← get).definedValue? node with
  | some literal => return literal.value
  | none => refuse (.rawValueOf (← nodeValue node).typeName)

/-! ## Objects -/

/-- Calls a function of the embedding program and counts the call. -/
def hostFunction (name : Text) (args : List Value) (keyword : Pairs) : StoreM Value := do
  let s ← get
  let count := (s.callCounts.lookup name).getD 0
  set { s with callCounts := (name,count + 1) :: s.callCounts.filter fun p => p.1 != name }
  compute (host.function name count args keyword)

/-- Calls a function. -/
def function (callable : Callable) (args : List Value) (keyword : Pairs) : StoreM Value :=
  match callable with
  | .builtin .parent => parent args keyword
  | .builtin .child => child calls args
  | .builtin .rawValue => rawValue args
  | .builtin f => Functions.call host f args keyword
  | .ref scope => do
    let address ← check (addressArgument callable.name args)
    calls.resolve (← Navigate.fromAddress calls scope address)
  | .node scope => do
    let address ← check (addressArgument callable.name args)
    nodeValue (← Navigate.fromAddress calls scope address)
  | .host name => hostFunction host name args keyword

/-- Calls a node: the value of what an address leads to from it. -/
def node (id : NodeId) (args : List Value) (keyword : Pairs) : StoreM Value := do
  if !keyword.isEmpty then refuse .keywordsForNode
  let address ← check (addressArgument "node" args)
  calls.resolve (← Navigate.fromAddress calls id address)

/-- Calls an object. -/
def object (o : Object) (args : List Value) (keyword : Pairs) : StoreM Value :=
  match o with
  | .node id _ => node calls id args keyword
  | .function _ callable => function host calls callable args keyword
  | .type type => Cast.invoke type args keyword
  | .factory f => compute (do Factory.asValue (← Factory.make f args keyword))
  | .modifier .. => compute (do Factory.asValue (← liftM (Factory.makeLoad args keyword)))
  | .foreign .. => return .undefined

/-- Indexes an object: a node gives a child. -/
def subscript (o : Object) (key : Value) : StoreM Value :=
  match o, key with
  | .node id _, .text name => do nodeValue (← calls.child id (.key name))
  | .node id _, .number index => do nodeValue (← calls.child id (.index index))
  | .node .., _ => throwCause (.address (.selectorType key.typeName))
  | .foreign _ f, _ => compute (host.subscript f key)
  | _, _ => return .undefined

end ConfTree.Invoke
