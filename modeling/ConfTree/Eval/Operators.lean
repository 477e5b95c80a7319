import ConfTree.Eval.Sequence
import ConfTree.Expr.Basic
import ConfTree.Number.Power
import ConfTree.Value.Equality

/-!
# Operators

Truth, arithmetic and comparison of values. Sums also join texts and lists, products repeat them,
and a remainder has the sign of its divisor.
-/
namespace ConfTree

/-- Remainder with the sign of the divisor. -/
def Number.modulo (x y : Number) : Number := Number.rem (Number.rem x y + y) y

namespace Value

/-- What counts as true: all but null, false, the zeros, not-a-number and whatever is empty. -/
def isTruthy : Value → Bool
  | .null | .undefined => false
  | .bool b => b
  | .number n => !n.isZero && !n.isNaN
  | .text t => !t.isEmpty
  | .list _ items | .set _ items => !items.isEmpty
  | .mapping _ pairs => !pairs.isEmpty
  | .object _ => true

end Value

namespace Operators

/-- The issue of two operands that an operator does not take. -/
def operands (sign : Text) (left right : Value) : EvalIssue := .operands sign left.typeName right.typeName

/-! ## Arithmetic -/

/-- The greatest number of units in a text. -/
def maxTextLength : Nat := 536870888

/-- A text a number of times; none of a negative number. -/
def repeatText (t : Text) (times : Nat) : Except Failure Text :=
  if t.isEmpty then .ok t
  else if t.length * times > maxTextLength then .error (.foreign "Invalid string length")
  else .ok (Text.replicate times t)

/-- A text repeated, if the operands are one and an integer. -/
def repeat? (sequence count : Value) : Option (Compute Value) :=
  match sequence, count with
  | .text t, .number n => n.int?.map fun i => .text <$> liftM (repeatText t i.toNat)
  | _, _ => none

/-- The items of a list and how often they are repeated, if the operands of a product are a list and an
integer. -/
def repetition? (op : BinaryOp) (a b : Value) : Option (List Value × Number) :=
  match op, a, b with
  | .multiply, .list _ items, .number n | .multiply, .number n, .list _ items =>
    if n.isInteger then some (items,n) else none
  | _, _, _ => none

/-- The items a number of times, which are counted one by one; none if the count stops moving on before it
comes to the number. -/
def repeatItems (items : List Value) (times : Number) : Option (List Value) :=
  (Sequence.progression .zero times (.ofNat 1)).map fun counts => counts.flatMap fun _ => items

/-- Addition of numbers; texts and lists are joined. -/
def add : Value → Value → Compute Value
  | .number a, .number b => return .number (a + b)
  | .text a, .text b => return .text (a ++ b)
  | .list _ a, .list _ b => Compute.list (a ++ b)
  | a, b => Compute.refuse (operands "+" a b)

/-- Multiplication of numbers; a text is repeated by an integer on either side. -/
def multiply (a b : Value) : Compute Value :=
  match a, b with
  | .number x, .number y => return .number (x * y)
  | _, _ =>
    match repeat? a b <|> repeat? b a with
    | some repeated => repeated
    | none => Compute.refuse (operands "*" a b)

/-- An operation on numbers alone. -/
def numeric (sign : Text) (f : Number → Number → Except EvalIssue Number) : Value → Value → Compute Value
  | .number x, .number y => .number <$> liftM (f x y)
  | a, b => Compute.refuse (operands sign a b)

/-- Refuses a zero divisor. -/
def dividing (issue : EvalIssue) (f : Number → Number → Number) (x y : Number) : Except EvalIssue Number :=
  if y.isZero then .error issue else .ok (f x y)

/-- An operation on two values other than the repetition of a list, which alone may never end. -/
def binary : BinaryOp → Value → Value → Compute Value
  | .add => add
  | .multiply => multiply
  | .subtract => numeric "-" fun x y => .ok (x - y)
  | .divide => numeric "/" (dividing .divisionByZero Number.div)
  | .modulo => numeric "%" (dividing .moduloByZero Number.modulo)
  | .power => numeric "**" fun x y => .ok (x.pow y)

def unary (op : UnaryOp) (v : Value) : Except EvalIssue Value :=
  match op, v with
  | .not, _ => .ok (.bool !v.isTruthy)
  | .minus, .number n => .ok (.number (-n))
  | .plus, .number n => .ok (.number n)
  | _, _ => .error (.unaryOperand op.sign v.typeName)

/-! ## Comparison -/

/-- Whether a container has an item: a text a part, a list or set an equal value, a mapping a key. -/
def isMember (item container : Value) : Except EvalIssue Bool :=
  match container with
  | .text t =>
    match item with
    | .text part => .ok (t.contains part)
    | _ => .error (.memberOfText item.typeName)
  | .list _ items | .set _ items => .ok (Value.isIn items item)
  | .mapping _ pairs =>
    match item with
    | .text key => .ok (Pairs.contains pairs key)
    | _ => .ok false
  | _ => .error (.notContainer container.typeName)

/-- The order of two texts, by their units. -/
def textOrder (a b : Text) : Ordering := if a < b then .lt else if b < a then .gt else .eq

/-- The order of two numbers or two texts; numbers may have none. -/
def order? (sign : Text) : Value → Value → Except EvalIssue (Option Ordering)
  | .number x, .number y => .ok (x.order y)
  | .text a, .text b => .ok (some (textOrder a b))
  | a, b => .error (operands sign a b)

def compare (op : CompareOp) (a b : Value) : Except EvalIssue Bool :=
  match op with
  | .equal => .ok (Value.equal a b)
  | .notEqual => .ok !Value.equal a b
  | .member => isMember a b
  | .less => return (← order? op.sign a b) == some .lt
  | .lessEqual => return (← order? op.sign a b).any (·.isLE)
  | .greater => return (← order? op.sign a b) == some .gt
  | .greaterEqual => return (← order? op.sign a b).any (·.isGE)

end Operators
end ConfTree
