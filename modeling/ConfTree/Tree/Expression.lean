import ConfTree.Eval.Evaluator
import ConfTree.Expr.Grammar
import ConfTree.Tree.Invoke

/-!
# Expressions in a tree

Reads and evaluates source texts: the expressions of scalars, and the lists of types and modifiers
that keys declare. A source longer than the limit is refused before it is read.
-/
namespace ConfTree.Expression

open StoreM

/-- Refuses a source longer than the limit. -/
def guardLength (limit : Number) (source : Text) : Except EvalIssue Text :=
  if (Number.ofNat source.length).order limit = some .gt then .error (.tooLong source limit) else .ok source

/-- Reads a source within the limit. -/
def read {α : Type} (parse : Text → Except Nat α) (limit : Number) (source : Text) : Except EvalIssue α := do
  discard (guardLength limit source)
  match parse source with
  | .ok a => return a
  | .error position => throw (.malformed source (position + 1))

/-- Lets an error of the embedding program end the evaluation of a source with an issue. -/
def guarded {α : Type} (source : Text) (action : StoreM α) : StoreM α :=
  tryCatch action fun
    | .fault id => throw (.fault id)
    | .foreign message => refuse (.interrupted source message)

variable (host : Host) (calls : Calls)

/-- What a source is evaluated in. -/
def env (context locals : Pairs) : Env where
  locals := locals
  context := context
  invoke := calls.invoke
  subscript := Invoke.subscript host calls
  operate := calls.operate

/-- The value of a source, names bound by `locals` besides the session's. -/
def evaluate (source : Text) (locals : Pairs) : StoreM Value := do
  let session ← getSession
  let e ← check (read Grammar.parseExpression session.settings.maxExpressionLength source)
  guarded source (Eval.eval (env host calls session.context locals) [] e)

/-- The values of a source that lists expressions. -/
def evaluateList (source : Text) (locals : Pairs) : StoreM (List Value) := do
  let session ← getSession
  let es ← check (read Grammar.parseList session.settings.maxExpressionLength source)
  guarded source (es.mapM (Eval.eval (env host calls session.context locals) []))

/-- The names that expressions of a node know besides the session's: the root, the node itself, its
unit, and functions that follow addresses from its scope. -/
def locals (id : NodeId) : StoreM Pairs := do
  requireSession id
  let s ← get
  let scope := s.scope id
  let root ← nodeValue s.session.root
  let self ← nodeValue id
  let unit ← nodeValue (s.unitRoot id)
  let ref ← compute Compute.fresh
  let node ← compute Compute.fresh
  return [("root",root),("self",self),("unit",unit),
    ("ref",.object (.function ref (.ref scope))),("node",.object (.function node (.node scope)))]

/-! ## Declarations -/

mutual

/-- The values in nested lists, one after another. -/
def flat : Value → List Value
  | .list _ items => flatAll items
  | v => [v]

def flatAll : List Value → List Value
  | [] => []
  | v :: rest => flat v ++ flatAll rest

end

/-- The type that a value declares; null stands for the type of null. -/
def asType (source : Text) : Value → Except ConstructionIssue TypeConstraint
  | .null => .ok .null
  | .object (.type name) => .ok (.named name)
  | v => .error (.declaredType source v.typeName)

/-- The modifier that a value declares. -/
def asModifier (source : Text) : Value → Except ConstructionIssue ModifierObject
  | .object (.modifier id m) => .ok ⟨id,m⟩
  | v => .error (.declaredModifier source v.typeName)

/-- The values that a source lists, read one by one. -/
def declared {α : Type} (read : Text → Value → Except ConstructionIssue α) (source : Text) (locals : Pairs) :
    StoreM (List α) := do
  let values ← evaluateList host calls source locals
  orThrow ((flatAll values).mapM fun v => (read source v).mapError fun issue => .construction issue none)

/-- The types that a source lists. -/
def types : Text → Pairs → StoreM (List TypeConstraint) := declared host calls asType

/-- The modifiers that a source lists. -/
def modifiers : Text → Pairs → StoreM (List ModifierObject) := declared host calls asModifier

/-- Evaluates the declarations of a key. -/
def declaration (source : DeclarationSource) (locals : Pairs) : StoreM Declaration := do
  let types ← source.types.mapM fun s => types host calls s locals
  let modifiers ← match source.modifiers with
    | some s => modifiers host calls s locals
    | none => pure []
  return ⟨types,modifiers⟩

end ConfTree.Expression
