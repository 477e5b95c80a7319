import ConfTree.Value.Display

/-!
# Shapes

What a value looks like to a writer: scalars, lists and records. Sets are written as lists. An object
is a record of its parts; some parts have no written form, and a node leads back to itself through
the tree, so that no writer comes to an end with it.
-/
namespace ConfTree

/-- What is written of a value. -/
inductive Shape where
  | null
  | bool (b : Bool)
  | number (n : Number)
  | text (t : Text)
  | list (items : List Shape)
  | record (pairs : List (Text × Shape))
  /-- no value; it is left out of records -/
  | missing
  /-- what has no written form, by the name of its type -/
  | barred (type : Text)
  /-- a node of a tree with a root of a kind -/
  | cycle (root : NodeKind)

namespace Shape

/-- Parts without a written form, by name. -/
def code (names : List Text) : List (Text × Shape) := names.map fun name => (name,.barred "Function")

/-- The parts of an object that has a name. -/
def named (type name : Text) (rest : List (Text × Shape)) : Shape :=
  .record (("typeName",.text type) :: ("name",.text name) :: rest)

/-- What is written of an atom of the embedding program. -/
def ofAtom (type : Text) : Shape :=
  if type = "bigint" then .barred "BigInt"
  else if type = "symbol" then .barred "Symbol"
  else .barred "Function"

/-- What is written of an object, in a tree with a root of a kind. -/
def ofObject (root : NodeKind) (o : Object) : Shape :=
  match o with
  | .node .. => .cycle root
  | .function _ f => named o.typeName f.name (code ["impl"])
  | .type t => named o.typeName t.name (code ["test","convert"])
  | .factory f => named o.typeName f.name (code ["build"])
  | .modifier _ m => .record [("typeName",.text o.typeName),("kind",.text m.kind)]
  | .foreign _ f => if f.isRecord then .record [] else ofAtom f.typeName

mutual

/-- What is written of a value, in a tree with a root of a kind. -/
def ofValue (root : NodeKind) : Value → Shape
  | .null => .null
  | .undefined => .missing
  | .bool b => .bool b
  | .number n => .number n
  | .text t => .text t
  | .list _ items | .set _ items => .list (ofItems root items)
  | .mapping _ pairs => .record (ofPairs root pairs)
  | .object o => ofObject root o

def ofItems (root : NodeKind) : List Value → List Shape
  | [] => []
  | v :: rest => ofValue root v :: ofItems root rest

def ofPairs (root : NodeKind) : List (Text × Value) → List (Text × Shape)
  | [] => []
  | (key,v) :: rest => (key,ofValue root v) :: ofPairs root rest

end

end Shape
end ConfTree
