import ConfTree.Fault.Address
import ConfTree.Fault.Construction
import ConfTree.Value.Pairs

/-!
# Faults

A fault is a cause, the node where it arose once that is known, and the trail of containers that
it went through since. The first location stands for good and opens the message; each later one
can only lengthen the trail.
-/
namespace ConfTree

/-- What went wrong. -/
inductive Cause where
  | construction (issue : ConstructionIssue) (path : Option Text)
  | address (issue : AddressIssue)
  /-- a node was met again while it was being worked on; the chain leads from it back to it -/
  | cycle (chain : List Text) (message : Option Text)
  | typeConstraint (expected : List Text) (actual : Text)
  | requirement (message : Option Text)
  | choice (message : Text) (choices : List Value)
  | eval (issue : EvalIssue)
  | overrideConflict (targets : List Text)
  /-- an error of the embedding program, met while a node was resolved -/
  | resolution (message : Text)
  | unitNotFound (unit : Text) (searched : List Text)

/-- An address as messages show it. -/
def displayAddress (address : Text) : Text := if address.isEmpty then "<root>" else address

namespace Cause

def message : Cause → Text
  | construction issue none => issue.message
  | construction issue (some path) => .concat [issue.message," (at ",displayAddress path,")"]
  | address issue => issue.message
  | cycle _ (some message) => message
  | cycle chain none => .concat ["Cyclic dependency: ",.join " -> " (chain.map displayAddress)]
  | typeConstraint expected actual =>
    .concat ["Expected a value of type ",.join " | " expected," but got ",actual]
  | requirement message => message.getD "Required value was not provided"
  | choice message _ => message
  | eval issue => issue.message
  | overrideConflict targets =>
    .concat ["Conflicting overrides for ",.join ", " (targets.map Text.quoted)]
  | resolution message => message
  | unitNotFound unit searched =>
    .concat ["Configuration unit '",unit,"' not found",
      if searched.isEmpty then "" else .concat [" (searched ",.join ", " searched,")"]]

/-- The name of the cause's class. -/
def name : Cause → Text
  | construction .. => "ConstructionError"
  | address _ => "AddressError"
  | cycle .. => "CyclicDependencyError"
  | typeConstraint .. => "TypeConstraintError"
  | requirement _ => "RequirementError"
  | choice .. => "ChoiceConstraintError"
  | eval _ => "EvalError"
  | overrideConflict _ => "OverrideConflictError"
  | resolution _ => "ResolutionError"
  | unitNotFound .. => "UnitNotFoundError"

/-- The code by which programs tell causes apart; a name that is not bound has one of its own. -/
def code : Cause → Text
  | construction .. => "CONSTRUCTION"
  | address _ => "ADDRESS"
  | cycle .. => "CYCLIC_DEPENDENCY"
  | typeConstraint .. => "TYPE_CONSTRAINT"
  | requirement _ => "REQUIREMENT"
  | choice .. => "CHOICE_CONSTRAINT"
  | eval issue => if issue.identifier?.any (!·.isEmpty) then "UNDEFINED_NAME" else "EVAL"
  | overrideConflict _ => "OVERRIDE_CONFLICT"
  | resolution _ => "RESOLUTION"
  | unitNotFound .. => "UNIT_NOT_FOUND"

/-- A detail that is left out when it is absent. -/
def detail (key : Text) : Option Value → Pairs
  | some v => [(key,v)]
  | none => []

def texts (ts : List Text) : Value := .list 0 (ts.map Value.text)

/-- What the report gives besides its message, if this class of causes has details. -/
def details : Cause → Option Pairs
  | construction _ path => path.map fun p => [("path",.text p)]
  | address issue =>
    some (detail "address" (issue.address?.map .text) ++ detail "selector" (issue.selector?.map .text))
  | cycle chain _ => some [("chain",texts chain)]
  | typeConstraint expected actual => some [("expected",texts expected),("actual",.text actual)]
  | requirement _ => none
  | choice _ choices => some [("choices",.list 0 choices)]
  | eval issue =>
    some (detail "expression" (issue.expression?.map .text) ++
      detail "identifier" (issue.identifier?.map .text) ++ detail "column" (issue.column?.map .number))
  | overrideConflict targets => some [("targets",texts targets)]
  | resolution _ => none
  | unitNotFound unit searched => some [("unit",.text unit),("searched",texts searched)]

end Cause

/-- Where in the tree a fault arose. -/
structure Location where
  address : Text
  kind : Text
deriving DecidableEq

/-- A cause with what is known of its way through the tree. -/
structure Fault where
  cause : Cause
  location : Option Location
  trail : List Text

namespace Fault

/-- A fault that was not located yet. -/
def ofCause (cause : Cause) : Fault := ⟨cause,none,[]⟩

/-- Notes that the fault passed a node: the first node is its location, a later one joins the trail
unless it is the location again or the last of the trail. -/
def locate (f : Fault) (address kind : Text) : Fault :=
  match f.location with
  | none => { f with location := some ⟨address,kind⟩ }
  | some l =>
    if f.trail.getLast? = some address || l.address = address then f
    else { f with trail := f.trail ++ [address] }

/-- The message, opened by the location. -/
def message (f : Fault) : Text :=
  match f.location with
  | none => f.cause.message
  | some l => .concat [l.kind," '",displayAddress l.address,"': ",f.cause.message]

/-- The fault on one line. -/
def text (f : Fault) : Text := .concat ["[",f.cause.code,"] ",f.message]

/-- Where the fault arose and how it went on, if it was located. -/
def whereabouts (f : Fault) : Pairs :=
  match f.location with
  | none => []
  | some l =>
    [("location",.mapping 0 [("address",.text l.address),("kind",.text l.kind)]),
      ("trail",Cause.texts f.trail)]

/-- The fault as a mapping: name, message and code, then details, location and trail where known. -/
def record (f : Fault) : Pairs :=
  let headline : Pairs :=
    [("name",.text f.cause.name),("message",.text f.message),("code",.text f.cause.code)]
  headline ++ Cause.detail "details" (f.cause.details.map (.mapping 0)) ++ f.whereabouts

end Fault
end ConfTree
