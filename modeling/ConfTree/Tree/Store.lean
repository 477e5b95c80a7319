import ConfTree.Declaration
import ConfTree.Eval.Compute
import ConfTree.Settings
import ConfTree.Tree.Content

/-!
# The store

All nodes of all trees, by their numbers, with the faults that were reported and the session that
the bound tree belongs to. Nodes are never removed: one that was replaced keeps a link to what took
its place.
-/
namespace ConfTree

/-- A fault that was reported, by its place in the store. -/
abbrev FaultId := Nat

/-- How far something has come that is done at most once. -/
inductive Progress (α : Type) where
  | pending
  | active
  | done (result : α)
  | failed (fault : FaultId)

/-- A step that a computed value goes through before its types are checked. -/
inductive Transform where
  /-- passes the value through a callable object -/
  | call (function : Object)
  /-- checks that the value equals one of these -/
  | among (values : List Value)
  /-- passes the value through a transform of the embedding program -/
  | host (name : Text)

/-- What a node is besides what all nodes have. -/
inductive Body where
  | scalar (raw : Literal) (override : Option Literal)
  | sequence (items declared : List NodeId) (isSettled : Bool)
  | mapping (entries : List NodeId) (isSettled : Bool)
  | entry (head : EntryHead) (slot declared : NodeId) (renamed : Option Text)
      (modification : Progress Unit) (evaluated : Option Declaration)

/-- A node. -/
structure Node where
  body : Body
  parent : Option NodeId
  /-- whether the node is the root of the session's tree -/
  isBound : Bool
  /-- the unit that the node is an instance of -/
  unit : Option Text
  replacedBy : Option NodeId
  isHidden : Bool
  isRequired : Bool
  isOverridden : Bool
  types : Option (List TypeConstraint)
  transforms : List Transform
  resolution : Progress Value

namespace Body

def kind : Body → NodeKind
  | .scalar .. => .scalar
  | .sequence .. => .sequence
  | .mapping .. => .mapping
  | .entry .. => .entry

end Body

namespace Node

/-- A node just built. -/
def fresh (body : Body) : Node :=
  ⟨body,none,false,none,none,false,false,false,none,[],.pending⟩

instance : Inhabited Node := ⟨fresh (.scalar .null none)⟩

def kind (n : Node) : NodeKind := n.body.kind

end Node

/-- A value to put in the place of the node of a name, and how often that was done. -/
structure Override where
  target : Text
  value : Value
  uses : Nat

/-- What the nodes of the bound tree share. -/
structure Session where
  settings : Settings
  root : NodeId
  /-- the names that expressions know -/
  context : Pairs
  overrides : List Override
  /-- gives the raw content of a unit -/
  loader : Option (Text → Except Failure Value)
  /-- the units loaded so far, each a tree that instances are copied from -/
  templates : List (Text × NodeId)
  /-- the nodes being worked on, the latest last -/
  busy : List NodeId
  /-- whether overrides without a node were looked for -/
  isReported : Bool

/-- The nodes of all trees, and what goes with them. -/
structure Store where
  nodes : Array Node
  faults : Array Fault
  session : Session
  /-- the next identity for a collection or object -/
  nextIdentity : Identity
  /-- how often each function of the embedding program was called -/
  callCounts : List (Text × Nat)

namespace Store

def node (s : Store) (id : NodeId) : Node := s.nodes[id]?.getD default

def kind (s : Store) (id : NodeId) : NodeKind := (s.node id).kind

/-! ## The current node -/

/-- What took a node's place in the end, at most so many replacements on. -/
def follow (s : Store) : Nat → NodeId → NodeId
  | 0, id => id
  | steps + 1, id =>
    match (s.node id).replacedBy with
    | some next => s.follow steps next
    | none => id

/-- What stands in a node's place now. -/
def current (s : Store) (id : NodeId) : NodeId := s.follow s.nodes.size id

/-- The current node above a node. -/
def above? (s : Store) (id : NodeId) : Option NodeId := (s.node (s.current id)).parent.map s.current

/-- The first node upward that has a property, or the topmost one; none if there is no such node within so
many steps. -/
def upTo (s : Store) (stop : Node → Bool) : Nat → NodeId → Option NodeId
  | 0, _ => none
  | steps + 1, id =>
    if stop (s.node (s.current id)) then some (s.current id)
    else match s.above? id with
      | some parent => s.upTo stop steps parent
      | none => some (s.current id)

/-- The top of the tree that a node stands in; none if the way upward goes in a circle. -/
def top? (s : Store) (id : NodeId) : Option NodeId := s.upTo (fun _ => false) (s.nodes.size + 1) id

/-- Whether a node stands in the session's tree. -/
def isBound (s : Store) (id : NodeId) : Bool := (s.top? id).any fun top => (s.node top).isBound

/-- Whether a node is the instance of a unit. -/
def isUnit (n : Node) : Bool := n.unit.any fun name => !name.isEmpty

/-- The nearest enclosing instance of a unit, or the top of the tree. -/
def unitRoot (s : Store) (id : NodeId) : NodeId := (s.upTo isUnit (s.nodes.size + 1) id).getD (s.current id)

/-- The container whose children a node's expressions address: the enclosing mapping of an entry's
value, else the parent. -/
def scope (s : Store) (id : NodeId) : NodeId :=
  match (s.node (s.current id)).parent with
  | none => s.current id
  | some parent =>
    match (s.node parent).body with
    | .entry .. => (s.node parent).parent.getD parent
    | _ => parent

/-! ## Names -/

/-- The key of an entry. -/
def entryKey (s : Store) (id : NodeId) : Text :=
  match (s.node id).body with
  | .entry head .. => head.key.name
  | _ => .empty

/-- The parts of a child's name below its container, given the parts of a node's own name. -/
def childPartsWith (s : Store) (parts : NodeId → Except AddressIssue (List Text)) (container child : NodeId) :
    Except AddressIssue (List Text) :=
  match (s.node container).body with
  | .scalar .. => do throw (.scalarChildren (.join "." (← parts container)))
  | .sequence items .. =>
    match items.idxOf? child with
    | some index => do return (← parts container) ++ [.ofNat index]
    | none => do throw (.strayItem (.join "." (← parts container)))
  | .mapping entries _ =>
    if entries.contains child then do return (← parts container) ++ [.concat ["*",s.entryKey child]]
    else do throw (.strayEntry (.join "." (← parts container)))
  | .entry head .. =>
    match (s.node container).parent with
    | some mapping => do return (← parts mapping) ++ [head.key.name]
    | none => .ok [head.key.name]

/-- The parts of a node's name, no more containers up than `steps`. -/
def partsUpTo (s : Store) : Nat → NodeId → Except AddressIssue (List Text)
  | 0, _ => .error .endless
  | steps + 1, id =>
    match (s.node (s.current id)).parent with
    | some parent => s.childPartsWith (s.partsUpTo steps) parent (s.current id)
    | none => .ok []

/-- The parts of a node's name, from the top of its tree. -/
def parts (s : Store) (id : NodeId) : Except AddressIssue (List Text) := s.partsUpTo (s.nodes.size + 1) id

/-- The parts of the name of a direct child. -/
def childParts (s : Store) (container child : NodeId) : Except AddressIssue (List Text) :=
  s.childPartsWith s.parts container child

/-- A node's name: the address that leads to it from the top of its tree. -/
def name (s : Store) (id : NodeId) : Except AddressIssue Text := Text.join "." <$> s.parts id

/-! ## Children -/

/-- The entries of a mapping. -/
def entries (s : Store) (id : NodeId) : List NodeId :=
  match (s.node id).body with
  | .mapping entries _ => entries
  | _ => []

/-- The keys of a mapping. -/
def keys (s : Store) (id : NodeId) : List Text := (s.entries id).map s.entryKey

/-- The entry of a mapping that has a key. -/
def findEntry (s : Store) (id : NodeId) (key : Text) : Option NodeId :=
  (s.entries id).find? fun e => s.entryKey e == key

/-- The key under which an entry's value is emitted. -/
def exposedKey (s : Store) (id : NodeId) : Text :=
  match (s.node id).body with
  | .entry head _ _ renamed .. => renamed.getD head.key.name
  | _ => .empty

/-- The node in the value slot of an entry. -/
def slot (s : Store) (id : NodeId) : NodeId :=
  match (s.node id).body with
  | .entry _ slot .. => slot
  | _ => id

/-- The current value of an entry. -/
def entryValue (s : Store) (id : NodeId) : NodeId := s.current (s.slot id)

/-- The current children of a node, in order. -/
def children (s : Store) (id : NodeId) : List NodeId :=
  match (s.node id).body with
  | .scalar .. => []
  | .sequence items .. => items.map s.current
  | .mapping entries _ => entries
  | .entry .. => [s.entryValue id]

/-- A scalar's override, or its raw value. -/
def definedValue? (s : Store) (id : NodeId) : Option Literal :=
  match (s.node id).body with
  | .scalar raw override => some (override.getD raw)
  | _ => none

/-! ## Declared content -/

/-- The content a node was declared with, whatever became of it since; at most `depth` levels. -/
def contentTo (s : Store) : Nat → NodeId → Content
  | 0, _ => .list []
  | depth + 1, id =>
    match (s.node id).body with
    | .scalar raw _ => .scalar raw
    | .sequence _ declared _ => .list (declared.map (s.contentTo depth))
    | .mapping entries _ =>
      .mapping (entries.filterMap fun e =>
        match (s.node e).body with
        | .entry head _ declared .. => some (head,s.contentTo depth declared)
        | _ => none)
    | .entry _ _ declared .. => s.contentTo depth declared

/-- The content a node was declared with. -/
def content (s : Store) (id : NodeId) : Content := s.contentTo (s.nodes.size + 1) id

end Store
end ConfTree
