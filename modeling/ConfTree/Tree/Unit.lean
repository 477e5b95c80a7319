import ConfTree.Tree.Edit

/-!
# Units

A unit is a named piece of content. It is loaded once, as a template, and each use gets a copy of
its own. A unit name is a relative path of plain segments, none of which leads upward.
-/
namespace ConfTree

namespace UnitName

/-- A unit of a segment of a name. -/
def isPart (u : CodeUnit) : Bool := u.inName || u == '.' || u == '-'

/-- A segment of a name: not empty, not `.` and not `..`. -/
def isSegment (segment : Text) : Bool :=
  !segment.isEmpty && segment.units.all isPart && segment != "." && segment != ".."

/-- Whether a text is the name of a unit. -/
def isValid (name : Text) : Bool := (name.splitOn '/').all isSegment

/-- Refuses a text that is no name of a unit. -/
def validate (name : Text) : Except Cause Text :=
  if isValid name then .ok name else .error (.construction (.unitName name) none)

end UnitName

namespace StoreM

/-- Loads a unit as a template. -/
def loadTemplate (name : Text) : StoreM NodeId := do
  match (← getSession).loader with
  | none => throwCause (.construction (.noLoader name) none)
  | some load =>
    match load name with
    | .error failure => throwFailure failure
    | .ok raw =>
      let template ← build raw name
      modifySession fun session => { session with templates := session.templates ++ [(name,template)] }
      return template

/-- The template of a unit, loaded if it was not before. -/
def template (name : Text) : StoreM NodeId := do
  discard (orThrow (UnitName.validate name))
  match (← getSession).templates.lookup name with
  | some template => return template
  | none => loadTemplate name

/-- A fresh instance of a unit. -/
def instantiate (name : Text) : StoreM NodeId := do
  let instance_ ← copy (← template name)
  modifyNode instance_ fun n => { n with unit := some name }
  return instance_

end StoreM

namespace Store

/-- The units around a node, outermost first, `found` being those further in; none if the topmost node is
more steps away. -/
def enclosingUnitsFrom (s : Store) : Nat → List Text → NodeId → Option (List Text)
  | 0, _, _ => none
  | steps + 1, found, id =>
    let here := match (s.node (s.current id)).unit with
      | some name => if name.isEmpty then found else name :: found
      | none => found
    match s.above? id with
    | some parent => s.enclosingUnitsFrom steps here parent
    | none => some here

/-- The units that a node stands in, outermost first; none if the way upward goes in a circle. -/
def enclosingUnits (s : Store) (id : NodeId) : Option (List Text) := s.enclosingUnitsFrom (s.nodes.size + 1) [] id

/-- The node below another one by one part of a path, nothing being modified. -/
def declaredChild? (s : Store) (id : NodeId) (part : Text) : Option NodeId :=
  match (s.node id).body with
  | .mapping .. => (s.findEntry id part).map s.entryValue
  | .sequence .. =>
    if !part.isEmpty && part.units.all CodeUnit.isDigit then
      (s.children id)[Number.valueOfDigits 10 part.units]?
    else none
  | _ => none

/-- The node that a dotted path leads to, nothing being modified. -/
def declaredNode? (s : Store) (id : NodeId) (path : Text) : Option NodeId :=
  (path.splitOn '.').foldlM s.declaredChild? id

end Store
end ConfTree
