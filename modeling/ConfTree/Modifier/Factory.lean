import ConfTree.Eval.Functions

/-!
# Modifier factories

The functions that make modifiers from arguments: `rename('lr')`, `choices('a', 'b')`,
`extends('base')`, `cast(int)`, and `load` with a group or variables.
-/
namespace ConfTree.Factory

open Functions (argument keywordArgument)

/-- Refuses a number of arguments outside a range. -/
def arity (name : Text) (args : List Value) (least most : Nat) : Except EvalIssue Unit :=
  if args.length < least || most < args.length then .error (.arguments name least most args.length)
  else .ok ()

/-- A text that is not empty. -/
def expectText (name : Text) (v : Value) : Except EvalIssue Text :=
  match v with
  | .text t => if t.isEmpty then .error (.expectsText name v.typeName) else .ok t
  | _ => .error (.expectsText name v.typeName)

def makeRename (args : List Value) : Except EvalIssue Modifier := do
  arity "rename" args 1 1
  return .rename (← expectText "rename" (argument args 0))

def makeCast (args : List Value) : Except EvalIssue Modifier := do
  arity "cast" args 1 1
  let v := argument args 0
  match v with
  | .object o => if o.isInvocable then return .cast o else throw (.expectsCallable v.typeName)
  | _ => throw (.expectsCallable v.typeName)

def makeExtends (args : List Value) : Except EvalIssue Modifier := do
  arity "extends" args 1 1
  match argument args 0 with
  | .text address => return .extends (.address address)
  | .object (.node id _) => return .extends (.node id)
  | v => throw (.expectsBase v.typeName)

/-- The option that stands when none is selected. -/
def fallback (v : Value) : Except Failure (Option Text) :=
  if v.isMissing then .ok none
  else match v with
    | .text key => .ok (some key)
    | _ => .error (.showing v .fallbackType)

/-- The values to choose from: the parts of an only list or set, or the arguments. -/
def chosenFrom (args : List Value) : List Value :=
  match args with
  | [.list _ items] | [.set _ items] => items
  | _ => args

/-- Named options from a mapping, with an optional default; or values to choose from. -/
def makeChoices (args : List Value) (keyword : Pairs) : Except Failure Modifier := do
  match args with
  | .mapping _ options :: _ =>
    if args.length > 2 then throw (.cause (.eval (.tooManyOptions args.length)))
    let default := (argument args 1).orElse (keywordArgument keyword "default")
    return .options options (← fallback default)
  | _ =>
    let values := chosenFrom args
    if values.isEmpty then throw (.cause (.eval .noOptions))
    return .values values

/-- The variables for a unit: a mapping, or none given. -/
def loadVariables (v : Value) : Except EvalIssue (Option Pairs) :=
  match v with
  | .undefined => .ok none
  | .mapping _ pairs => .ok (some pairs)
  | _ => .error (.variablesType v.typeName)

/-- A loader of units, of a group or with variables if they are given. -/
def makeLoad (args : List Value) (keyword : Pairs) : Except EvalIssue Modifier := do
  arity "load" args 0 1
  let first := argument args 0
  let group := if first.isMissing then keywordArgument keyword "group" else first
  let vars ← loadVariables (keywordArgument keyword "vars")
  match group with
  | .undefined => return .load none vars
  | v => return .load (some (← expectText "load" v)) vars

/-- The modifier that a factory makes. -/
def make (f : Factory) (args : List Value) (keyword : Pairs) : Compute Modifier :=
  match f with
  | .rename => liftM (makeRename args)
  | .choices => liftM (makeChoices args keyword)
  | .extends => liftM (makeExtends args)
  | .cast => liftM (makeCast args)

/-- A modifier as a value, with an identity of its own. -/
def asValue (m : Modifier) : Compute Value := return .object (.modifier (← Compute.fresh) m)

end ConfTree.Factory
