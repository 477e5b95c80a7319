import ConfTree.Eval.Compute

/-!
# Sequences

The parts of a value in order, one part by its index, and slices. Iteration and slices take a text
by code points; an index takes it by units.
-/
namespace ConfTree.Sequence

/-- The parts of a value, in order: items, members, code points or keys. -/
def iterate : Value → Except EvalIssue (List Value)
  | .list _ items | .set _ items => .ok items
  | .text t => .ok (t.codePoints.map .text)
  | .mapping _ pairs => .ok (pairs.map fun p => .text p.1)
  | v => .error (.notIterable v.typeName)

/-! ## Indices -/

/-- The place that an index names among `length` places, a negative one counting from the end. -/
def position (index : Value) (length : Nat) : Except EvalIssue Nat :=
  match index with
  | .number n =>
    match n.int? with
    | some i =>
      let place := if i < 0 then i + length else i
      if place < 0 || (length : Int) ≤ place then .error (.indexRange n length) else .ok place.toNat
    | none => .error (.indexType index.typeName)
  | _ => .error (.indexType index.typeName)

/-- The part of a list, text or mapping under an index; none of anything else. -/
def index? (object index : Value) : Option (Except Failure Value) :=
  match object with
  | .list _ items => some <|
    match position index items.length with
    | .ok i => .ok (items[i]?.getD .undefined)
    | .error issue => .error (.cause (.eval issue))
  | .text t => some <|
    match position index t.length with
    | .ok i => .ok (.text ((t.drop i).take 1))
    | .error issue => .error (.cause (.eval issue))
  | .mapping _ pairs => some <|
    match index with
    | .text key =>
      match Pairs.get? pairs key with
      | some v => .ok v
      | none => .error (.showing index .missingKey)
    | _ => .error (.showing index .missingKey)
  | _ => none

/-! ## Slices -/

/-- A bound of a slice: an integer, or none given. -/
def bound (name : Text) (v : Value) : Except EvalIssue (Option Int) :=
  if v.isMissing then .ok none
  else match v with
    | .number n =>
      match n.int? with
      | some i => .ok (some i)
      | none => .error (.sliceBound name v.typeName)
    | _ => .error (.sliceBound name v.typeName)

/-- A bound as a place, drawn into the range that a stride of its sign walks. -/
def place (length : Nat) (stride : Int) (fallback : Int) : Option Int → Int
  | none => fallback
  | some b =>
    let b := if b < 0 then b + length else b
    if 0 < stride then min (max b 0) length else min (max b (-1)) (length - 1)

/-- How far it is from a place to `stop` in the direction of a stride; nothing once it is reached. -/
def toGo (stop stride place : Int) : Nat := if 0 < stride then (stop - place).toNat else (place - stop).toNat

/-- The places from one on, a stride apart, that come before `stop` in the direction of the stride. -/
def places (stop stride place : Int) : List Int :=
  if stride ≠ 0 ∧ 0 < toGo stop stride place then place :: places stop stride (place + stride) else []
termination_by toGo stop stride place
decreasing_by
  rename_i more
  unfold toGo at more ⊢
  by_cases upward : 0 < stride
  · simp only [if_pos upward] at more ⊢
    omega
  · simp only [if_neg upward] at more ⊢
    omega

/-- What stands at a place; `hole` where nothing does. -/
def itemAt {α : Type} (items : List α) (hole : α) (place : Int) : α :=
  if place < 0 then hole else items[place.toNat]?.getD hole

/-- Reads the bounds, the stride first, and takes the slice: what stands at the places from the start on, a
stride apart, before the stop. -/
def sliceItems {α : Type} (items : List α) (hole : α) (start stop step : Value) : Except EvalIssue (List α) := do
  let stride := (← bound "step" step).getD 1
  if stride = 0 then throw .zeroStride
  let length := items.length
  let first := place length stride (if 0 < stride then 0 else length - 1) (← bound "start" start)
  let last := place length stride (if 0 < stride then length else -1) (← bound "stop" stop)
  return (places last stride first).map (itemAt items hole)

/-- A slice of a text, by code points, or of a list. -/
def slice (object start stop step : Value) : Compute Value :=
  match object with
  | .text t => return .text (.concat (← liftM (sliceItems t.codePoints .empty start stop step)))
  | .list _ items => do Compute.list (← liftM (sliceItems items .undefined start stop step))
  | v => Compute.refuse (.notSliceable v.typeName)

/-! ## Arithmetic progressions -/

/-- Whether `x` lies strictly before `y` in the direction of a step. -/
def isBefore (step x y : Number) : Bool :=
  match x.steps?, y.steps? with
  | some a, some b => if step.isNegative then b < a else a < b
  | _, _ => false

/-- How far apart two finite numbers are. -/
def distance (x y : Number) : Nat := (x.steps?.getD 0 - y.steps?.getD 0).natAbs

/-- The terms of a progression after those already found, which are given last first. -/
def progressionFrom (found : List Number) (start stop step : Number) : Option (List Number) :=
  if !isBefore step start stop then some found.reverse
  else
    let next := start + step
    if !isBefore step next stop then some (start :: found).reverse
    else if distance next stop < distance start stop then progressionFrom (start :: found) next stop step
    else none
termination_by distance start stop

/-- The numbers from `start` on by `step`, strictly before `stop` in the direction of the step; none
if adding the step stops moving on before that. -/
def progression (start stop step : Number) : Option (List Number) := progressionFrom [] start stop step

end ConfTree.Sequence
