import ConfTree.Tree.Action
import ConfTree.Value.Coercion

/-!
# Inspection

What a program that embeds this one and looks at its tree is shown of it. No part of a configuration is computed by these
functions. What is known of one node is given as a mapping: its kind and names, how far it has come, its flags, and what its kind
has besides; and a value of its own modifiers may be taken as a number.
-/
namespace ConfTree.Inspection

open StoreM

def texts (ts : List Text) : Value := Cause.texts ts

/-- A text, or null if there is none. -/
def optional (t : Option Text) : Value := t.elim .null .text

/-- How far a computation has come. -/
def progressName {α : Type} : Progress α → Text
  | .pending => "unresolved"
  | .active => "in-progress"
  | .done _ => "resolved"
  | .failed _ => "failed"

/-- The names of declared types, or null if there are none. -/
def typeNames (types : Option (List TypeConstraint)) : Value :=
  types.elim .null fun ts => texts (ts.map TypeConstraint.name)

/-- The declarations of a key as they were written. -/
def source (s : DeclarationSource) : Value :=
  .mapping 0 [("types",optional s.types),("modifiers",optional s.modifiers)]

/-- A key with its declarations. -/
def key (k : Key) : Value :=
  .mapping 0 [("name",.text k.name),("types",optional k.source.types),("modifiers",optional k.source.modifiers)]

/-- The types and modifiers of a declaration. -/
def declaration (d : Declaration) : Value :=
  .mapping 0 [("types",typeNames d.types),("modifiers",texts (d.modifiers.map fun m => m.modifier.kind))]

/-- What a node has by its kind. -/
def ofKind (id : NodeId) : StoreM Pairs := do
  let s ← get
  match (s.node id).body with
  | .scalar raw override => return [("raw",raw.value),("defined",(override.getD raw).value)]
  | .sequence items .. => return [("length",.ofNat items.length)]
  | .mapping .. => return [("keys",texts (s.keys id))]
  | .entry head .. =>
    let base ← head.inherited.mapM nameOf
    return [("key",.text head.key.name),("exposed",.text (s.exposedKey id)),("inherits",optional base),
      ("source",source head.key.source)]

/-- All that is known of a node. -/
def ofNode (id : NodeId) : StoreM Value := do
  let s ← get
  let n := s.node id
  let name ← nameOf id
  let shown ← nodeText id
  let unitRoot ← nameOf (s.unitRoot id)
  let scope ← nameOf (s.scope id)
  let common : Pairs :=
    [("kind",.text n.kind.name),("name",.text name),("text",.text shown),
      ("typeName",.text (Object.node id n.kind).typeName),("state",.text (progressName n.resolution)),
      ("hidden",.bool n.isHidden),("required",.bool n.isRequired),("overridden",.bool n.isOverridden),
      ("types",typeNames n.types),("transforms",.ofNat n.transforms.length),("bound",.bool (s.isBound id)),
      ("unit",optional n.unit),("unitRoot",.text unitRoot),("scope",.text scope),
      ("replaced",.bool n.replacedBy.isSome)]
  return .mapping 0 (common ++ (← ofKind id))

/-- The names that expressions of a node know, each with the text of its value. -/
def localTexts (locals : Pairs) : StoreM Value := do
  let rows ← locals.mapM fun p => do return Value.list 0 [.text p.1,.text (← textOf p.2)]
  return .list 0 rows

/-- A value taken as a number. -/
def coercedNumber (v : Value) : Number :=
  match v with
  | .null => .zero
  | .bool b => if b then .ofNat 1 else .zero
  | .number n => n
  | .text t => .ofText t
  | .list .. => .ofText v.coercedText
  | _ => .nan

end ConfTree.Inspection
