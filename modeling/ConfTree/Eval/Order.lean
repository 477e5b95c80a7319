import ConfTree.Eval.Operators

/-!
# Order

Sorting and extreme values. A list is sorted by insertion: its longest run from the start that is
already in order, or strictly in opposite order and then reversed, takes in the other values one by
one, each at the place that a binary search finds. Equal values keep their order.
-/
namespace ConfTree.Order

/-- The order that sorting goes by. Values that do not compare either way count as equal. -/
def order (a b : Value) : Except EvalIssue Ordering := do
  if ← Operators.compare .less a b then return .lt
  if ← Operators.compare .greater a b then return .gt
  return .eq

/-- The place in `sorted` after every value that is not above `v`, between `low` and `high`. -/
def place (v : Value) (sorted : Array Value) (low high : Nat) : Except EvalIssue Nat :=
  if low < high then do
    let mid := low + (high - low) / 2
    match ← order v (sorted[mid]?.getD .undefined) with
    | .lt => place v sorted low mid
    | _ => place v sorted (mid + 1) high
  else .ok low
termination_by high - low

/-- Inserts a value at its place. -/
def insert (sorted : Array Value) (v : Value) : Except EvalIssue (Array Value) := do
  return sorted.insertIdxIfInBounds (← place v sorted 0 sorted.size) v

/-- Goes on with a run, given last value first, as long as each value is in order with the one before
it: not below, or with `descending` below. With the run, the values left. -/
def run (descending : Bool) (previous : Value) (earlier : List Value) :
    List Value → Except EvalIssue (List Value × List Value)
  | [] => .ok (previous :: earlier,[])
  | v :: rest => do
    if ((← order v previous) == .lt) != descending then return (previous :: earlier,v :: rest)
    run descending v (previous :: earlier) rest

/-- The values in ascending order. -/
def sort : List Value → Except EvalIssue (List Value)
  | first :: second :: rest => do
    let descending := (← order second first) == .lt
    let (start,left) ← run descending second [first] rest
    let sorted ← left.foldlM insert (if descending then start else start.reverse).toArray
    return sorted.toList
  | short => .ok short

def isUndefined : Value → Bool
  | .undefined => true
  | _ => false

/-- The values in ascending order, undefined ones last. -/
def sorted (vs : List Value) : Except EvalIssue (List Value) := do
  return (← sort (vs.filter fun v => !isUndefined v)) ++ vs.filter isUndefined

/-- The first value that no later one passes in the sense of `op`; none of no values. -/
def extreme (op : CompareOp) : List Value → Except EvalIssue (Option Value)
  | [] => .ok none
  | first :: rest => some <$> rest.foldlM (fun best v => do
      return if ← Operators.compare op v best then v else best) first

end ConfTree.Order
