import ConfTree.Tree.Navigate

/-!
# Outlines

A tree as indented lines, one a node: what the node is, and in brackets what is special about it.
-/
namespace ConfTree.Outline

open StoreM

/-- A scalar as it is written in an outline. -/
def literalText : Literal → Text
  | .null => "null"
  | .bool b => Value.boolText b
  | .number n => n.text
  | .text t => t.escaped

/-- What a node is. -/
def label (n : Node) : Text :=
  match n.body with
  | .scalar raw override => .concat ["scalar ",literalText (override.getD raw)]
  | body => body.kind.name

/-- A mark, if it applies. -/
def mark (applies : Bool) (t : Text) : List Text := if applies then [t] else []

/-- What is special about a node. -/
def flags (n : Node) : List Text :=
  let types := (n.types.getD []).map TypeConstraint.name
  let unit := n.unit.getD .empty
  mark n.isHidden "hidden" ++ mark n.isRequired "required" ++ mark n.isOverridden "overridden" ++
    mark (!types.isEmpty) (.concat ["types=",.join "|" types]) ++
    mark (!unit.isEmpty) (.concat ["unit=",unit])

/-- The line of a node. -/
def line (depth : Nat) (opening : Text) (n : Node) : Text :=
  let special := flags n
  .concat [.replicate depth "  ",opening,label n,
    if special.isEmpty then "" else .concat [" [",.join ", " special,"]"]]

/-- How an outline comes to the nodes that it shows. -/
structure Visit where
  /-- the node that stands for a node -/
  node : NodeId → StoreM NodeId
  /-- the value of an entry -/
  value : NodeId → StoreM NodeId

/-- Nodes as they are. -/
def asIs : Visit where
  node := current
  value entry := return (← get).entryValue entry

/-- Nodes after overrides and modifiers. -/
def settling (calls : Calls) : Visit where
  node := calls.settled
  value := Navigate.entryValue calls

/-- The lines of a tree that is no deeper than `fuel`. -/
def lines (visit : Visit) : (fuel depth : Nat) → (opening : Text) → NodeId → StoreM (List Text)
  | 0, _, _, _ => unending
  | fuel + 1, depth, opening, id => do
    let live ← visit.node id
    let s ← get
    let first := line depth opening (s.node live)
    let rest ← match (s.node live).body with
      | .mapping entries _ => entries.mapM fun entry => do
        let value ← visit.value entry
        lines visit fuel (depth + 1) (.concat [(← get).exposedKey entry,": "]) value
      | .sequence .. => (s.children live).mapM fun item => lines visit fuel (depth + 1) "- " item
      | _ => pure []
    return first :: rest.flatten

/-- The outline of a tree as it is. -/
def outline (id : NodeId) : StoreM Text := do
  return .join "\n" (← lines asIs ((← get).nodes.size + 1) 0 .empty id)

end ConfTree.Outline
