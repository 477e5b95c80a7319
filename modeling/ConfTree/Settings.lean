import ConfTree.Fault.Basic

/-!
# Settings

How a configuration is read: the marks of embedded expressions, the limit on their length, the
extensions of unit files, and what happens to overrides that match nothing. Settings come in layers
of partial mappings, each checked field by field, a later layer winning.
-/
namespace ConfTree

/-- The settings of one configuration. -/
structure Settings where
  /-- marks a text as an expression -/
  interpolationPrefix : Text
  /-- placed before the mark, makes it literal -/
  escapePrefix : Text
  /-- the greatest length of an expression, in units -/
  maxExpressionLength : Number
  /-- tried in order when a unit name has none of them -/
  unitExtensions : List Text
  /-- refuse, rather than accept, overrides that match no node -/
  failOnUnusedOverrides : Bool

namespace Settings

def defaults : Settings where
  interpolationPrefix := "$:"
  escapePrefix := "\\"
  maxExpressionLength := .ofNat 10000
  unitExtensions := [".yaml",".yml",".json"]
  failOnUnusedOverrides := false

/-- The fields that a layer can set. -/
inductive Field where
  | interpolationPrefix | escapePrefix | maxExpressionLength | unitExtensions | failOnUnusedOverrides
deriving DecidableEq

namespace Field

def name : Field → Text
  | .interpolationPrefix => "interpolationPrefix"
  | .escapePrefix => "escapePrefix"
  | .maxExpressionLength => "maxExpressionLength"
  | .unitExtensions => "unitExtensions"
  | .failOnUnusedOverrides => "failOnUnusedOverrides"

def inOrder : List Field :=
  [.interpolationPrefix,.escapePrefix,.maxExpressionLength,.unitExtensions,.failOnUnusedOverrides]

/-- The field of a name. -/
def ofName? (name : Text) : Option Field := inOrder.find? fun f => f.name = name

/-- The kind of values that the field takes, as messages give it. -/
def kind : Field → Text
  | .interpolationPrefix | .escapePrefix => "string"
  | .maxExpressionLength => "number"
  | .unitExtensions => "string[]"
  | .failOnUnusedOverrides => "boolean"

end Field

/-- The texts of a list that holds nothing else. -/
def texts? (items : List Value) : Option (List Text) :=
  items.mapM fun
    | .text t => some t
    | _ => none

/-- The settings with one field set, if the value is of the field's kind. A length is a positive
integer. -/
def set? (s : Settings) : Field → Value → Option Settings
  | .interpolationPrefix, .text t => some { s with interpolationPrefix := t }
  | .escapePrefix, .text t => some { s with escapePrefix := t }
  | .maxExpressionLength, .number n =>
    if n.isInteger && !n.isNegative && !n.isZero then some { s with maxExpressionLength := n } else none
  | .unitExtensions, .list _ items => (texts? items).map fun ts => { s with unitExtensions := ts }
  | .failOnUnusedOverrides, .bool b => some { s with failOnUnusedOverrides := b }
  | _, _ => none

/-- A layer of settings: the fields it sets, with their values, in the order written. -/
abbrev Layer := List (Field × Value)

/-- The settings with a layer over them. -/
def withLayer (s : Settings) (layer : Layer) : Settings :=
  layer.foldl (fun acc p => (acc.set? p.1 p.2).getD acc) s

/-- The fields of a mapping, each with a value of its kind; other keys are ignored. -/
def checkFields (source : Text) : Pairs → Except ConstructionIssue Layer
  | [] => .ok []
  | (key,v) :: rest =>
    match Field.ofName? key with
    | none => checkFields source rest
    | some f =>
      if (defaults.set? f v).isSome then do return (f,v) :: (← checkFields source rest)
      else .error (.settingType key source f.kind)

/-- A value read as a layer of settings. What holds no fields of its own counts as an empty one. -/
def checkLayer (source : Text) : Value → Except ConstructionIssue Layer
  | .mapping _ pairs => checkFields source pairs
  | .set .. => .ok []
  | .object (.foreign _ o) => if o.isRecord then .ok [] else .error (.settingsShape source)
  | .object _ => .ok []
  | _ => .error (.settingsShape source)

/-- The layer as a mapping. -/
def Layer.record (layer : Layer) : Pairs := layer.map fun p => (p.1.name,p.2)

/-- The settings as a mapping. -/
def record (s : Settings) : Pairs :=
  [("interpolationPrefix",.text s.interpolationPrefix),("escapePrefix",.text s.escapePrefix),
    ("maxExpressionLength",.number s.maxExpressionLength),("unitExtensions",Cause.texts s.unitExtensions),
    ("failOnUnusedOverrides",.bool s.failOnUnusedOverrides)]

/-- The defaults with an explicit layer over them; no layer is an empty one. -/
def ofOptions : Value → Except ConstructionIssue Settings
  | .undefined => .ok defaults
  | v => defaults.withLayer <$> checkLayer "options" v

end Settings
end ConfTree
