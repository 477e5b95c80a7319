import ConfTree.Value.Basic
import ConfTree.Text.Quote

/-!
# Display

The text of a value as messages and `str` give it: texts quoted, numbers by their shortest digits,
collections between brackets. How an object is shown may depend on the tree, so it is a parameter.
-/
namespace ConfTree

namespace Callable

/-- The name of a function. -/
def name : Callable → Text
  | .builtin f => f.name
  | .ref _ => "ref"
  | .node _ => "node"
  | .host name => name

end Callable

namespace Object

/-- The text of an object that is no node. -/
def text : Object → Text
  | .node .. => ""
  | .function _ f => .concat ["<function ",f.name,">"]
  | .type t => .concat ["<type ",t.name,">"]
  | .modifier _ m => .concat ["<modifier ",m.kind,">"]
  | .factory f => .concat ["<modifier factory ",f.name,">"]
  | .foreign _ o => o.display

end Object

namespace Value

def boolText (b : Bool) : Text := if b then "true" else "false"

/-- The parts between an opening and a closing mark, separated by commas. -/
def bracketed (opening closing : Text) (parts : List Text) : Text :=
  .concat [opening,.join ", " parts,closing]

variable {m : Type → Type} [Monad m] (showObject : Object → m Text)

mutual

/-- The display of a value. -/
def displayWith : Value → m Text
  | .null | .undefined => pure "null"
  | .bool b => pure (boolText b)
  | .number n => pure n.text
  | .text t => pure t.escaped
  | .list _ items => do return bracketed "[" "]" (← displayItems items)
  | .set _ items => do return bracketed "\x7b" "\x7d" (← displayItems items)
  | .mapping _ pairs => do return bracketed "\x7b" "\x7d" (← displayPairs pairs)
  | .object o => showObject o

def displayItems : List Value → m (List Text)
  | [] => pure []
  | v :: rest => do
    let first ← displayWith v
    return first :: (← displayItems rest)

def displayPairs : Pairs → m (List Text)
  | [] => pure []
  | (key,v) :: rest => do
    let first ← displayWith v
    return .concat [key.escaped,": ",first] :: (← displayPairs rest)

end

/-- The text of a value: a text itself, of anything else the display. -/
def textWith : Value → m Text
  | .text t => pure t
  | v => displayWith showObject v

end Value
end ConfTree
