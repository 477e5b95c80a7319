import ConfTree.Tree.Action

/-!
# Building and replacing

New trees grow from content, and a node of one tree can take the place of another node. The node
that gives way keeps a link to its replacement, and hands on what was asked of it: to be hidden, to
be required, and the transforms that its value was to go through.
-/
namespace ConfTree

open StoreM

namespace StoreM

/-- Sets the parent of nodes. -/
def adopt (parent : NodeId) (children : List NodeId) : StoreM Unit :=
  children.forM fun child => modifyNode child fun n => { n with parent := some parent }

/-- Adds a node with its children, which get it as their parent. -/
def newParent (body : Body) (children : List NodeId) : StoreM NodeId := do
  let id ← newNode (.fresh body)
  adopt id children
  return id

/-- Adds an entry with its value. -/
def newEntry (head : EntryHead) (value : NodeId) : StoreM NodeId :=
  newParent (.entry head value value none .pending none) [value]

/-- Adds a mapping with its entries. -/
def newMapping (entries : List NodeId) : StoreM NodeId := newParent (.mapping entries false) entries

mutual

/-- Builds a tree, which stands alone. -/
def plant : Content → StoreM NodeId
  | .scalar literal => newNode (.fresh (.scalar literal none))
  | .list items => do
    let ids ← plantAll items
    newParent (.sequence ids ids false) ids
  | .mapping entries => do newMapping (← plantEntries entries)

def plantAll : List Content → StoreM (List NodeId)
  | [] => return []
  | content :: rest => do
    let id ← plant content
    return id :: (← plantAll rest)

def plantEntries : List (EntryHead × Content) → StoreM (List NodeId)
  | [] => return []
  | (head,content) :: rest => do
    let value ← plant content
    let id ← newEntry head value
    return id :: (← plantEntries rest)

end

/-- Builds a tree from a raw value; `path` says in messages where the value stands. -/
def build (raw : Value) (path : Text) : StoreM NodeId := do plant (← orThrow (Content.ofValue path raw))

/-- The first key that occurred before, `seen` being those that did. -/
def firstRepeated (seen : List Text) : List Text → Option Text
  | [] => none
  | key :: rest => if seen.contains key then some key else firstRepeated (key :: seen) rest

/-- Builds a mapping from entries, no two of which may have one key. -/
def mappingOf (entries : List (EntryHead × Content)) : StoreM NodeId := do
  match firstRepeated [] (entries.map fun p => p.1.key.name) with
  | some key => throwCause (.construction (.duplicateKey key) none)
  | none => plant (.mapping entries)

/-- Builds a copy of what a node was declared with. -/
def copy (id : NodeId) : StoreM NodeId := do
  let s ← get
  let value ← plant (s.content id)
  match (s.node id).body with
  | .entry head .. => newEntry head value
  | _ => pure value

/-! ## Replacing -/

/-- Puts a node in the place of a child. -/
def replaceChild (container child replacement : NodeId) : StoreM Unit := do
  match (← getNode container).body with
  | .scalar .. => throwCause (.address (.scalarChildren (← nameOf container)))
  | .mapping .. => throwCause (.construction (.fixedEntry (← nameOf child)) none)
  | .sequence items declared isSettled =>
    match items.idxOf? child with
    | none =>
      let name ← nameOf child
      throwCause (.address (.notItem name (← nameOf container)))
    | some index =>
      modifyBody container fun _ => .sequence (items.set index replacement) declared isSettled
      adopt container [replacement]
  | .entry head slot declared renamed modification evaluated =>
    if child != slot then throwCause (.address (.notValue (← nameOf child) head.key.name))
    modifyBody container fun _ => .entry head replacement declared renamed modification evaluated
    adopt container [replacement]

/-- Makes a node the top of its tree; if the other one was the root of the session's tree, it is now. -/
def replaceTop (top replacement : NodeId) : StoreM Unit := do
  modifyNode replacement fun n => { n with parent := none }
  if (← getNode top).isBound then
    modifyNode top fun n => { n with isBound := false }
    modifyNode replacement fun n => { n with isBound := true }
    modifySession fun session => { session with root := replacement }

/-- Hands on what was asked of a node, transforms after those the other one has. -/
def handOn (node replacement : NodeId) : StoreM Unit := do
  let old ← getNode node
  modifyNode replacement fun n =>
    { n with
      isHidden := n.isHidden || old.isHidden
      isRequired := n.isRequired || old.isRequired
      transforms := n.transforms ++ old.transforms }
  modifyNode node fun n => { n with replacedBy := some replacement }

/-- Puts a node in the place of the current one and gives it back. -/
def replaceWith (id replacement : NodeId) : StoreM NodeId := do
  let node ← current id
  if replacement = node then return node
  match (← getNode node).parent with
  | some parent => replaceChild (← current parent) node replacement
  | none => replaceTop node replacement
  handOn node replacement
  discard (nameOf replacement)
  return replacement

/-! ## Overrides -/

/-- The value that overrides the node of a name, its use counted. -/
def takeOverride (name : Text) : StoreM (Option Value) := do
  let session ← getSession
  match session.overrides.find? fun o => o.target == name with
  | none => return none
  | some override =>
    let used := session.overrides.map fun o => if o.target == name then { o with uses := o.uses + 1 } else o
    modifySession fun session => { session with overrides := used }
    return some override.value

/-- Marks a node as overridden. -/
def markOverridden (id : NodeId) : StoreM Unit := modifyNode id fun n => { n with isOverridden := true }

/-- Puts a value in the place of a node: a scalar takes a scalar, else a tree is built from the value
and takes the node's place. -/
def override (node : NodeId) (name : Text) (value : Value) : StoreM NodeId := do
  match (← getNode node).body, value.literal? with
  | .scalar raw _, some literal =>
    modifyBody node fun _ => .scalar raw (some literal)
    markOverridden node
    return node
  | _, _ =>
    let replacement ← build value name
    markOverridden replacement
    replaceWith node replacement

/-- Applies the override of a node's name, if there is one. -/
def applyOverride (id : NodeId) : StoreM NodeId := do
  let node ← current id
  requireSession node
  let name ← nameOf node
  match ← takeOverride name with
  | none => return node
  | some value => override node name value

end StoreM
end ConfTree
