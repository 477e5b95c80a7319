import ConfTree.Eval.Cast
import ConfTree.Eval.Host
import ConfTree.Eval.Order
import ConfTree.Text.Case

/-!
# Functions

The functions that every registry starts with and that need no tree.
-/
namespace ConfTree.Functions

open StoreM

/-- Refuses a number of arguments by position outside a range. -/
def arity (f : Builtin) (args : List Value) (least most : Nat) : Except EvalIssue Unit :=
  if args.length < least || most < args.length then .error (.positionals f.name least most args.length)
  else .ok ()

/-- The argument of a place, undefined if it is not given. -/
def argument (args : List Value) (place : Nat) : Value := args[place]?.getD .undefined

/-- The argument of a name, undefined if it is not given. -/
def keywordArgument (keyword : Pairs) (name : Text) : Value := (Pairs.get? keyword name).getD .undefined

/-- The second argument, given by position or by name; missing, it is the default. -/
def second (args : List Value) (keyword : Pairs) (name : Text) (default : Value) : Value :=
  ((argument args 1).orElse (keywordArgument keyword name)).orElse default

def expectNumber (f : Builtin) : Value → Except EvalIssue Number
  | .number n => .ok n
  | v => .error (.expectsNumber f.name v.typeName)

def expectInteger (f : Builtin) (v : Value) : Except EvalIssue Number := do
  let n ← expectNumber f v
  if n.isInteger then return n else throw (.expectsInteger f.name)

def expectMapping (f : Builtin) : Value → Except EvalIssue Pairs
  | .mapping _ pairs => .ok pairs
  | v => .error (.expectsMapping f.name v.typeName)

/-! ## Numbers -/

/-- The bounds and step of a range. -/
def rangeBounds (args : List Value) : Except EvalIssue (Number × Number × Number) := do
  arity .range args 1 3
  let one := Number.ofNat 1
  let first ← expectInteger .range (argument args 0)
  if args.length = 1 then return (.zero,first,one)
  let stop ← expectInteger .range (argument args 1)
  let step ← if args.length = 3 then expectInteger .range (argument args 2) else pure one
  if step.isZero then throw .zeroRangeStep
  return (first,stop,step)

/-- The sum of the parts of a value, from a start on. -/
def sum (args : List Value) (keyword : Pairs) : Except EvalIssue Number := do
  arity .sum args 1 2
  let start ← expectNumber .sum (second args keyword "start" (.number .zero))
  (← Sequence.iterate (argument args 0)).foldlM (fun total v => do return total + (← expectNumber .sum v)) start

/-- A number rounded to a number of decimal places, a half going up. -/
def roundTo (n places : Number) : Number :=
  let factor := Number.pow (.ofNat 10) places
  (n * factor).round / factor

def round (args : List Value) (keyword : Pairs) : Except EvalIssue Number := do
  arity .round args 1 2
  let n ← expectNumber .round (argument args 0)
  return roundTo n (← expectInteger .round (second args keyword "ndigits" (.number .zero)))

/-- A function of one number. -/
def onNumber (f : Builtin) (g : Number → Number) (args : List Value) : Except EvalIssue Value := do
  arity f args 1 1
  return .number (g (← expectNumber f (argument args 0)))

/-! ## Sequences and mappings -/

/-- How long a text, list, set or mapping is. -/
def len (args : List Value) : Except EvalIssue Value := do
  arity .len args 1 1
  match argument args 0 with
  | .text t => return .ofNat t.length
  | .list _ items | .set _ items => return .ofNat items.length
  | .mapping _ pairs => return .ofNat pairs.length
  | v => throw (.noLength v.typeName)

/-- The first value that no other one passes, of the parts of the only argument or of the arguments. -/
def extreme (f : Builtin) (op : CompareOp) (args : List Value) : Except EvalIssue Value := do
  let candidates ← match args with
    | [v] => Sequence.iterate v
    | _ => pure args
  match ← Order.extreme op candidates with
  | some v => return v
  | none => throw (.emptySequence f.name)

/-- The items at each place, as far as all lists go. -/
def zipped (lists : List (List Value)) : List (List Value) :=
  match lists with
  | [] => []
  | first :: rest =>
    let length := rest.foldl (fun n items => min n items.length) first.length
    (List.range length).map fun i => lists.map fun items => items[i]?.getD .undefined

/-- A list of lists. -/
def rows (lists : List (List Value)) : Compute Value := do Compute.list (← lists.mapM Compute.list)

/-- Pairs of an index, counted from a start, and an item. -/
def numbered (start : Number) (items : List Value) : List (List Value) :=
  items.mapIdx fun i v => [.number (start + .ofNat i),v]

def enumerate (args : List Value) (keyword : Pairs) : Except EvalIssue (List (List Value)) := do
  arity .enumerate args 1 2
  let start ← expectInteger .enumerate (second args keyword "start" (.number .zero))
  return numbered start (← Sequence.iterate (argument args 0))

def sorted (args : List Value) (keyword : Pairs) : Except EvalIssue (List Value) := do
  arity .sorted args 1 1
  let ascending ← Order.sorted (← Sequence.iterate (argument args 0))
  return if (keywordArgument keyword "reverse").isTruthy then ascending.reverse else ascending

/-- The parts of the only argument. -/
def onlyParts (f : Builtin) (args : List Value) : Except EvalIssue (List Value) := do
  arity f args 1 1
  Sequence.iterate (argument args 0)

/-- The pairs of the only argument. -/
def onlyPairs (f : Builtin) (args : List Value) : Except EvalIssue Pairs := do
  arity f args 1 1
  expectMapping f (argument args 0)

/-! ## Text and the environment -/

/-- Joins the texts of the parts of a value. -/
def join (args : List Value) (keyword : Pairs) : StoreM Value := do
  check (arity .join args 1 2)
  match second args keyword "separator" (.text .empty) with
  | .text separator =>
    let parts ← check (Sequence.iterate (argument args 0))
    return .text (.join separator (← parts.mapM textOf))
  | v => refuse (.separatorType v.typeName)

/-- A function of the text of one value. -/
def onText (f : Builtin) (g : Text → Text) (args : List Value) : StoreM Value := do
  check (arity f args 1 1)
  return .text (g (← textOf (argument args 0)))

/-- The value of a variable; if it is not set, a default. -/
def env (host : Host) (args : List Value) (keyword : Pairs) : Compute Value := do
  liftM (arity .env args 1 2)
  match argument args 0 with
  | .text name => return (← host.valueOf name).orElse (second args keyword "default" .null)
  | v => Compute.refuse (.variableType v.typeName)

def cwd (host : Host) (args : List Value) : Except EvalIssue Value := do
  arity .cwd args 0 0
  return .text host.directory

/-- Calls a function that needs no tree. -/
def call (host : Host) (f : Builtin) (args : List Value) (keyword : Pairs) : StoreM Value :=
  match f with
  | .len => check (len args)
  | .range => do
    let (start,stop,step) ← check (rangeBounds args)
    match Sequence.progression start stop step with
    | some terms => compute (Compute.list (terms.map .number))
    | none => unending
  | .min => check (extreme f .less args)
  | .max => check (extreme f .greater args)
  | .sum => check (.number <$> sum args keyword)
  | .abs => check (onNumber f .abs args)
  | .round => check (.number <$> round args keyword)
  | .floor => check (onNumber f .floor args)
  | .ceil => check (onNumber f .ceil args)
  | .keys => do compute (Compute.list ((← check (onlyPairs f args)).map fun p => .text p.1))
  | .values => do compute (Compute.list ((← check (onlyPairs f args)).map Prod.snd))
  | .items => do compute (rows ((← check (onlyPairs f args)).map fun p => [.text p.1,p.2]))
  | .zip => do compute (rows (zipped (← check (args.mapM Sequence.iterate))))
  | .enumerate => do compute (rows (← check (enumerate args keyword)))
  | .sorted => do compute (Compute.list (← check (sorted args keyword)))
  | .reversed => do compute (Compute.list (← check (onlyParts f args)).reverse)
  | .any => do return .bool ((← check (onlyParts f args)).any Value.isTruthy)
  | .all => do return .bool ((← check (onlyParts f args)).all Value.isTruthy)
  | .join => join args keyword
  | .upper => onText f .upper args
  | .lower => onText f .lower args
  | .env => compute (env host args keyword)
  | .cwd => check (cwd host args)
  | .parent | .child | .rawValue => return .undefined

end ConfTree.Functions
