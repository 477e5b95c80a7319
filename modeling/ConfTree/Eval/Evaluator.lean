import ConfTree.Eval.Operators
import ConfTree.Tree.Action

/-!
# Evaluation

The value of an expression. Names are looked up among the variables of the enclosing comprehensions,
then among the names local to the expression, then in the context. How objects are called and
indexed depends on the tree, and an operation may never end; so what these come to is part of the
environment.
-/
namespace ConfTree

/-- What an expression is evaluated in. -/
structure Env where
  locals : Pairs
  context : Pairs
  invoke : Object → List Value → Pairs → StoreM Value
  subscript : Object → Value → StoreM Value
  operate : BinaryOp → Value → Value → StoreM Value

/-- The variables of the enclosing comprehensions, innermost first. -/
abbrev Frame := List (Text × Value)

namespace Eval

open StoreM

/-- The value of a name. -/
def lookup (env : Env) (frame : Frame) (name : Text) : Except EvalIssue Value :=
  match frame.lookup name <|> env.locals.lookup name <|> env.context.lookup name with
  | some v => .ok v
  | none => .error (.undefinedName name)

/-- The key that a value is. -/
def mappingKey : Value → Except EvalIssue Text
  | .text key => .ok key
  | v => .error (.keyType v.typeName)

/-- The pairs that a value adds to a mapping display. -/
def spreadPairs : Value → Except EvalIssue Pairs
  | .mapping _ pairs => .ok pairs
  | v => .error (.spreadIntoMapping v.typeName)

/-- Binds the variables of a clause to an item: one to the item itself, several to the items of a
list of that many. -/
def bind (targets : List Text) (item : Value) : Except EvalIssue Frame :=
  match targets, item with
  | [target], _ => .ok [(target,item)]
  | _, .list _ values =>
    if values.length = targets.length then .ok (targets.zip values).reverse
    else .error (.unpack item.typeName targets)
  | _, _ => .error (.unpack item.typeName targets)

/-- The part of a value under an index. -/
def index (env : Env) (object key : Value) : StoreM Value := do
  match Sequence.index? object key, object with
  | some (.ok v), _ => return v
  | some (.error failure), _ => throwFailure failure
  | none, .object o => if o.isSubscriptable then env.subscript o key else refuse (.notSubscriptable object.typeName)
  | none, _ => refuse (.notSubscriptable object.typeName)

/-- Does an operation on two values; a list is repeated without end if counting the times does not end. -/
def operate (op : BinaryOp) (left right : Value) : StoreM Value :=
  match Operators.repetition? op left right with
  | some (items,times) =>
    match Operators.repeatItems items times with
    | some repeated => compute (Compute.list repeated)
    | none => unending
  | none => compute (Operators.binary op left right)

/-! ## Calls -/

/-- The name of what is called, as messages give it. -/
def calleeName (callee : Expr) (v : Value) : Text :=
  match callee with
  | .name name => name
  | _ => v.typeName

/-- The arguments of a call. -/
structure Arguments where
  positional : List Value
  keyword : Pairs

/-- Adds a keyword argument, each at most once. -/
def addKeyword (callee : Text) (keyword : Pairs) (name : Text) (v : Value) : Except EvalIssue Pairs :=
  if Pairs.contains keyword name then .error (.repeatedKeyword callee name)
  else .ok (Pairs.insert keyword name v)

/-- Adds what is spread: the pairs of a mapping as keyword arguments, the parts of anything else by
position. -/
def addSpread (callee : Text) (args : Arguments) : Value → Except EvalIssue Arguments
  | .mapping _ pairs => do
    let keyword ← pairs.foldlM (fun keyword p => addKeyword callee keyword p.1 p.2) args.keyword
    return ⟨args.positional,keyword⟩
  | v => do return ⟨args.positional ++ (← Sequence.iterate v),args.keyword⟩

/-- Calls an object; an error of the embedding program ends the call with an issue. -/
def call (env : Env) (name : Text) (callee : Value) (args : Arguments) : StoreM Value := do
  match callee with
  | .object o =>
    if !o.isInvocable then refuse (.notCallable name callee.typeName)
    tryCatch (env.invoke o args.positional args.keyword) fun
      | .fault id => throw (.fault id)
      | .foreign message => refuse (.callFailed name message)
  | _ => refuse (.notCallable name callee.typeName)

/-! ## Expressions -/

mutual

/-- The value of an expression. -/
def eval (env : Env) (frame : Frame) : Expr → StoreM Value
  | .literal l => return l.value
  | .name name => check (lookup env frame name)
  | .list items => do compute (Compute.list (← evalItems env frame items))
  | .set items => do compute (Compute.set (← evalItems env frame items))
  | .mapping entries => do compute (Compute.mapping (← evalEntries env frame [] entries))
  | .comprehension kind element clauses => do
    let emitted ← evalClauses env frame clauses fun inner => do return (.empty,← eval env inner element)
    let items := emitted.map Prod.snd
    compute (match kind with
      | .list => Compute.list items
      | .set => Compute.set items)
  | .mappingComprehension key value clauses => do
    let emitted ← evalClauses env frame clauses fun inner => do
      let name ← check (mappingKey (← eval env inner key))
      return (name,← eval env inner value)
    compute (Compute.mapping (Pairs.ofList emitted))
  | .unary op argument => do check (Operators.unary op (← eval env frame argument))
  | .binary op left right => do
    let l ← eval env frame left
    env.operate op l (← eval env frame right)
  | .logical op left right => do
    let l ← eval env frame left
    if l.isTruthy == (op == .or) then return l
    eval env frame right
  | .compare first rest => do evalChain env frame (← eval env frame first) rest
  | .conditional test consequent alternate => do
    if (← eval env frame test).isTruthy then eval env frame consequent else eval env frame alternate
  | .call callee args => do
    let target ← eval env frame callee
    let name := calleeName callee target
    call env name target (← evalArguments env frame name ⟨[],[]⟩ args)
  | .index object key => do
    let o ← eval env frame object
    index env o (← eval env frame key)
  | .slice object start stop step => do
    let o ← eval env frame object
    let first ← evalBound env frame start
    let last ← evalBound env frame stop
    compute (Sequence.slice o first last (← evalBound env frame step))

/-- The value of a bound of a slice, undefined if there is none. -/
def evalBound (env : Env) (frame : Frame) : Option Expr → StoreM Value
  | none => return .undefined
  | some e => eval env frame e

/-- Compares along a chain, as long as its links hold. -/
def evalChain (env : Env) (frame : Frame) (left : Value) : List (CompareOp × Expr) → StoreM Value
  | [] => return .bool true
  | (op,operand) :: rest => do
    let right ← eval env frame operand
    if ← check (Operators.compare op left right) then evalChain env frame right rest
    else return .bool false

/-- The values of a list or set display. -/
def evalItems (env : Env) (frame : Frame) : List Item → StoreM (List Value)
  | [] => return []
  | .one e :: rest => do
    let v ← eval env frame e
    return v :: (← evalItems env frame rest)
  | .spread e :: rest => do
    let vs ← check (Sequence.iterate (← eval env frame e))
    return vs ++ (← evalItems env frame rest)

/-- The pairs of a mapping display, written over those before. -/
def evalEntries (env : Env) (frame : Frame) (before : Pairs) : List Entry → StoreM Pairs
  | [] => return before
  | .spread e :: rest => do
    let pairs ← check (spreadPairs (← eval env frame e))
    evalEntries env frame (Pairs.insertAll before pairs) rest
  | .pair key value :: rest => do
    let name ← check (mappingKey (← eval env frame key))
    let v ← eval env frame value
    evalEntries env frame (Pairs.insert before name v) rest

/-- What the clauses of a comprehension lead to, in order; each result is a value under a key. -/
def evalClauses (env : Env) (frame : Frame) :
    List Clause → (Frame → StoreM (Text × Value)) → StoreM (List (Text × Value))
  | [], emit => do return [← emit frame]
  | .when test :: rest, emit => do
    if (← eval env frame test).isTruthy then evalClauses env frame rest emit else return []
  | .each targets iterable :: rest, emit => do
    let items ← check (Sequence.iterate (← eval env frame iterable))
    let found ← items.mapM fun item => do
      let vars ← check (bind targets item)
      evalClauses env (vars ++ frame) rest emit
    return found.flatten

/-- The arguments of a call, added to those before. -/
def evalArguments (env : Env) (frame : Frame) (callee : Text) (before : Arguments) :
    List Argument → StoreM Arguments
  | [] => return before
  | .positional e :: rest => do
    let v ← eval env frame e
    evalArguments env frame callee { before with positional := before.positional ++ [v] } rest
  | .keyword name e :: rest => do
    let v ← eval env frame e
    let keyword ← check (addKeyword callee before.keyword name v)
    evalArguments env frame callee { before with keyword } rest
  | .spread e :: rest => do
    let args ← check (addSpread callee before (← eval env frame e))
    evalArguments env frame callee args rest

end

end Eval
end ConfTree
