import ConfTree.Tree.Expression

/-!
# Overrides

Overrides come from mappings of targets to values, and from texts of assignments whose right-hand
sides are expressions. A target is known by its canonical path; no two overrides have one target.
-/
namespace ConfTree.Overrides

open StoreM

variable (host : Host) (calls : Calls)

/-- Refuses a value that is no native content. -/
def checkValue (target : Text) (v : Value) : Except Cause Value :=
  if v.isNative then .ok v else .error (.construction (.overrideValue target v.typeName) none)

/-- The canonical path of a target. -/
def canonical (key : Text) : Except Cause Text :=
  match Grammar.parseTarget key with
  | .ok target => .ok target
  | .error _ => .error (.construction (.overrideTarget key) none)

/-- The overrides that a mapping gives. -/
def ofPairs : Pairs → Except Cause (List (Text × Value))
  | [] => .ok []
  | (key,v) :: rest => do
    let target ← canonical key
    let v ← checkValue key v
    return (target,v) :: (← ofPairs rest)

/-- The overrides that a text of assignments gives; a blank text gives none. -/
def ofText (text : Text) : StoreM (List (Text × Value)) := do
  if text.isBlank then return []
  let limit := (← getSession).settings.maxExpressionLength
  let assignments ← check (Expression.read Grammar.parseAssignments limit text)
  assignments.mapM fun a => do
    let v ← Expression.evaluate host calls a.source []
    return (a.target,← orThrow (checkValue a.target v))

/-- The overrides that one source gives. -/
def ofInput : Value → StoreM (List (Text × Value))
  | .text t => ofText host calls t
  | .mapping _ pairs => orThrow (ofPairs pairs)
  | v => throwCause (.construction (.overrideInput v.typeName) none)

/-- The targets that occur more than once, in order. -/
def conflicts (targets : List Text) : List Text := targets.eraseDups.filter fun t => targets.count t > 1

/-- Merges the overrides of several sources. -/
def ofInputs (inputs : List Value) : StoreM (List Override) := do
  let pairs := (← inputs.mapM (ofInput host calls)).flatten
  let conflicting := conflicts (pairs.map Prod.fst)
  if !conflicting.isEmpty then throwCause (.overrideConflict conflicting)
  return pairs.map fun p => ⟨p.1,p.2,0⟩

/-- The targets of overrides that were never used. -/
def unused (overrides : List Override) : List Text :=
  (overrides.filter fun o => o.uses == 0).map Override.target

end ConfTree.Overrides
