import ConfTree.Output.Shape

/-!
# Writing JSON

Each item and each member has a line of its own, indented by two spaces a level; empty collections
are written closed. What JSON has no form for is null in a list and left out of a record.
-/
namespace ConfTree.Json

/-- The start of a line at a level. -/
def newLine (level : Nat) : Text := ("\n" : Text) ++ .replicate (2 * level) " "

/-- Parts between brackets, a line for each, the brackets standing at a level. -/
def block (opening closing : Text) (level : Nat) (parts : List Text) : Text :=
  if parts.isEmpty then opening ++ closing
  else
    let inner := newLine (level + 1)
    .concat [opening,inner,.join ((",": Text) ++ inner) parts,newLine level,closing]

/-- The name that a report of a cycle gives the root of the tree. -/
def rootName : NodeKind → Text
  | .mapping => "MappingNode"
  | .entry => "EntryNode"
  | .sequence => "SequenceNode"
  | .scalar => "ScalarNode"

/-- The report of a node that would be written. -/
def cycleReport (root : NodeKind) : Text :=
  .concat ["Converting circular structure to JSON\n    --> starting at object with constructor ",
    (rootName root).quoted,"\n    |     property 'boundSession' -> object with constructor 'ResolutionSession'",
    "\n    --- property 'root' closes the circle"]

mutual

/-- The text of a shape whose brackets stand at a level; none if there is nothing to write. -/
def write? (level : Nat) : Shape → Except Text (Option Text)
  | .null => .ok (some "null")
  | .bool b => .ok (some (Value.boolText b))
  | .number n => .ok (some (if n.isFinite then n.text else "null"))
  | .text t => .ok (some t.escaped)
  | .missing => .ok none
  | .barred type => if type = "BigInt" then .error "Do not know how to serialize a BigInt" else .ok none
  | .cycle root => .error (cycleReport root)
  | .list items => do return some (block "[" "]" level (← writeItems (level + 1) items))
  | .record pairs => do return some (block "\x7b" "\x7d" level (← writePairs (level + 1) pairs))

def writeItems (level : Nat) : List Shape → Except Text (List Text)
  | [] => .ok []
  | item :: rest => do
    let first ← write? level item
    return first.getD "null" :: (← writeItems level rest)

def writePairs (level : Nat) : List (Text × Shape) → Except Text (List Text)
  | [] => .ok []
  | (key,item) :: rest => do
    match ← write? level item with
    | some t => return .concat [key.escaped,": ",t] :: (← writePairs level rest)
    | none => writePairs level rest

end

/-- The lines of a shape; what has no form at all counts as undefined. -/
def write (shape : Shape) : Except Text Text := do
  let t ← write? 0 shape
  return t.getD "undefined" ++ ("\n" : Text)

end ConfTree.Json
