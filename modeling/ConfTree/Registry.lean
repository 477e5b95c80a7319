import ConfTree.Address
import ConfTree.Fault.Construction
import ConfTree.Value.Pairs

/-!
# Registries

The names that expressions know, with their values, in the order in which they were bound. Every
registry starts with the functions, the types and the modifiers.
-/
namespace ConfTree

/-- Names with their values. -/
abbrev Registry := List (Text × Value)

namespace Registry

/-- The modifiers that need no arguments, each one and the same object wherever it is used. -/
def modifiers : List (Text × Modifier) :=
  [("hidden",.visibility true),("visible",.visibility false),("required",.required),("noop",.noop),
    ("promote",.promote),("fuse",.fuse),("load",.load none none)]

/-- Where the identities end that the modifiers without arguments have. -/
def firstFreeIdentity : Identity := modifiers.length + 1

/-- The modifier of a name. -/
def modifier? (name : Text) : Option Value := do
  let m ← modifiers.lookup name
  let place ← modifiers.findIdx? fun p => p.1 == name
  return .object (.modifier (place + 1) m)

/-- The names that modifiers and their factories are bound to, in order. -/
def modifierNames : List Text :=
  ["hidden","visible","required","noop","promote","fuse","rename","choices","extends","derives",
    "load","cast"]

/-- What a name of a modifier or factory stands for; `derives` is another name of `extends`. -/
def modifierValue (name : Text) : Value :=
  (modifier? name).getD (.object (.factory
    (if name = "rename" then .rename else if name = "choices" then .choices
      else if name = "cast" then .cast else .extends)))

/-- The registry to start with; its functions have the identity given. -/
def standard (id : Identity) : Registry :=
  (Builtin.inOrder.map fun f => (f.name,.object (.function id (.builtin f)))) ++
    (TypeName.inOrder.map fun t => (t.name,.object (.type t))) ++
    modifierNames.map fun name => (name,modifierValue name)

/-- Binds a name to a value; a name that is bound already only with `overwrite`. -/
def register (r : Registry) (name : Text) (v : Value) (overwrite : Bool) : Except ConstructionIssue Registry :=
  if !Address.isName name.units then .error (.registeredName name)
  else if Pairs.contains r name && !overwrite then .error (.boundName name)
  else .ok (Pairs.insert r name v)

end Registry
end ConfTree
