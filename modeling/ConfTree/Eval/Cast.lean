import ConfTree.Eval.Operators
import ConfTree.Tree.Action

/-!
# Casts

A type called like a function converts a value to the type. Without a value it gives the type's
empty one: zero, the empty text, false, or an empty collection.
-/
namespace ConfTree.Cast

open StoreM

/-- The issue of a value that a type cannot be made from. -/
def refused {α : Type} (type : TypeName) (v : Value) : Except Failure α :=
  .error (.showing v fun display => .cast type.name v.typeName display)

/-- The number of a text that writes a finite one. -/
def finiteOfText? (t : Text) : Option Number :=
  if t.isBlank then none
  else
    let n := Number.ofText t
    if n.isFinite then some n else none

/-- The number that a value stands for. -/
def toNumber (type : TypeName) (v : Value) : Except Failure Number :=
  match v with
  | .undefined => .ok .zero
  | .number n => .ok n
  | .bool b => .ok (if b then .ofNat 1 else .zero)
  | .text t =>
    match finiteOfText? t with
    | some n => .ok n
    | none => refused type v
  | _ => refused type v

/-- Whether a text is an optional sign and digits, blanks around them left out. -/
def isIntegerText (t : Text) : Bool :=
  let (_,digits) := Number.splitSign t.trim.units
  !digits.isEmpty && digits.all CodeUnit.isDigit

/-- The integer part of the number a value stands for; a text has to write an integer. -/
def toInteger (v : Value) : Except Failure Number :=
  match v with
  | .text t => if isIntegerText t then Number.trunc <$> toNumber .int v else refused .int v
  | _ => Number.trunc <$> toNumber .int v

/-- The parts of a value; none of the undefined one. -/
def parts : Value → Except EvalIssue (List Value)
  | .undefined => .ok []
  | v => Sequence.iterate v

/-- Writes a pair, given as a list, into a mapping. -/
def insertPair (pairs : Pairs) : Value → Except Failure Pairs
  | .list _ [.text key,v] => .ok (Pairs.insert pairs key v)
  | v => .error (.showing v .expectsPairs)

/-- The pairs of a mapping, or of a sequence of pairs. -/
def toPairs : Value → Compute Pairs
  | .mapping _ pairs => return pairs
  | v => do (← liftM (parts v)).foldlM (fun pairs pair => liftM (insertPair pairs pair)) []

/-- Converts a value to a type other than `str`. -/
def convert (type : TypeName) (v : Value) (keyword : Pairs) : Compute Value :=
  match type with
  | .int => .number <$> liftM (toInteger v)
  | .float | .number => .number <$> liftM (toNumber type v)
  | .bool => return .bool v.isTruthy
  | .list => do Compute.list (← liftM (parts v))
  | .set => do Compute.set (← liftM (parts v))
  | .dict => do Compute.mapping (Pairs.insertAll (← toPairs v) keyword)
  | .str => return v

/-- Converts a value to text. -/
def toText : Value → StoreM Text
  | .undefined => return .empty
  | v => textOf v

/-- Calls a type. -/
def invoke (type : TypeName) (args : List Value) (keyword : Pairs) : StoreM Value := do
  if args.length > 1 then refuse (.atMostOne type.name args.length)
  let v := args.head?.getD .undefined
  match type with
  | .str => return .text (← toText v)
  | _ => compute (convert type v keyword)

end ConfTree.Cast
