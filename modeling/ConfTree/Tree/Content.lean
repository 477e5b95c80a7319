import ConfTree.Expr.Record
import ConfTree.Key

/-!
# Content

What a tree is built from: scalars, lists, and mappings whose keys are read. A value is fit to be
content when it is made of native scalars, lists and mappings throughout, every key can be read, and
no two keys of a mapping declare one name.
-/
namespace ConfTree

/-- The native scalar that a value is. -/
def Value.literal? : Value → Option Literal
  | .null => some .null
  | .bool b => some (.bool b)
  | .number n => if n.isFinite then some (.number n) else none
  | .text t => some (.text t)
  | _ => none

/-- What an entry of a mapping is known by: its key, and the entry of a base whose declaration it
inherits. -/
structure EntryHead where
  key : Key
  inherited : Option NodeId

/-- The content of a tree. -/
inductive Content where
  | scalar (literal : Literal)
  | list (items : List Content)
  | mapping (entries : List (EntryHead × Content))

namespace Content

/-- The path of an item, below the path of its list. -/
def itemPath (path : Text) (index : Nat) : Text := .concat [path,"[",.ofNat index,"]"]

/-- The path of an entry's value, below the path of its mapping. -/
def entryPath (path name : Text) : Text := if path.isEmpty then name else .concat [path,".",name]

/-- Reads a key at a path. -/
def readKey (path raw : Text) : Except Cause Key :=
  match Key.parse raw with
  | .ok key => .ok key
  | .error issue => .error (.construction issue (some path))

/-- Refuses a key whose name an earlier one declares; `seen` gives each name with its key. -/
def checkName (path : Text) (seen : List (Text × Text)) (raw : Text) (key : Key) : Except Cause Unit :=
  match seen.lookup key.name with
  | some first => .error (.construction (.repeatedName first raw key.name) (some path))
  | none => .ok ()

mutual

/-- Reads a value as content; `path` says where it stands. -/
def ofValue (path : Text) : Value → Except Cause Content
  | .list _ items => .list <$> ofItems path 0 items
  | .mapping _ pairs => .mapping <$> ofPairs path [] pairs
  | .null => .ok (.scalar .null)
  | .bool b => .ok (.scalar (.bool b))
  | .text t => .ok (.scalar (.text t))
  | .number n =>
    if n.isFinite then .ok (.scalar (.number n))
    else .error (.construction (.unsupportedValue (Value.number n).typeName) (some path))
  | .undefined => .error (.construction (.unsupportedValue Value.undefined.typeName) (some path))
  | .set id items => .error (.construction (.unsupportedValue (Value.set id items).typeName) (some path))
  | .object o => .error (.construction (.unsupportedValue o.typeName) (some path))

def ofItems (path : Text) (index : Nat) : List Value → Except Cause (List Content)
  | [] => .ok []
  | v :: rest => do
    let item ← ofValue (itemPath path index) v
    return item :: (← ofItems path (index + 1) rest)

def ofPairs (path : Text) (seen : List (Text × Text)) : Pairs → Except Cause (List (EntryHead × Content))
  | [] => .ok []
  | (raw,v) :: rest => do
    let key ← readKey path raw
    checkName path seen raw key
    let content ← ofValue (entryPath path key.name) v
    return (⟨key,none⟩,content) :: (← ofPairs path ((key.name,raw) :: seen) rest)

end

end Content
end ConfTree
