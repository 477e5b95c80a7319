import ConfTree.Proofs.Runs
import ConfTree.Tree.Expression

/-!
# Scopes

Which names an expression depends on. The free names of an expression are those that it takes from around it: a
`for` clause binds its targets in the clauses after it and in what the comprehension emits. Two environments
in which the free names of an expression mean the same give one outcome (`eval_agree`); and whatever surrounds an
expression is told its outcome alone, so a comprehension can stand in the place of another one that binds other
names (`eval_within`).
-/
namespace ConfTree

open StoreM

mutual

/-- The names that an expression takes from around it. -/
def Expr.freeNames : Expr → List Text
  | .literal _ => []
  | .name name => [name]
  | .list items => itemsFree items
  | .set items => itemsFree items
  | .mapping entries => entriesFree entries
  | .comprehension _ element clauses => clausesFree element.freeNames clauses
  | .mappingComprehension key value clauses => clausesFree (key.freeNames ++ value.freeNames) clauses
  | .unary _ argument => argument.freeNames
  | .binary _ left right => left.freeNames ++ right.freeNames
  | .logical _ left right => left.freeNames ++ right.freeNames
  | .compare first rest => first.freeNames ++ linksFree rest
  | .conditional test consequent alternate => test.freeNames ++ (consequent.freeNames ++ alternate.freeNames)
  | .call callee args => callee.freeNames ++ argumentsFree args
  | .index object key => object.freeNames ++ key.freeNames
  | .slice object start stop step => object.freeNames ++ (boundFree start ++ (boundFree stop ++ boundFree step))

def boundFree : Option Expr → List Text
  | none => []
  | some e => e.freeNames

def linksFree : List (CompareOp × Expr) → List Text
  | [] => []
  | (_,e) :: rest => e.freeNames ++ linksFree rest

def itemsFree : List Item → List Text
  | [] => []
  | .one e :: rest => e.freeNames ++ itemsFree rest
  | .spread e :: rest => e.freeNames ++ itemsFree rest

def entriesFree : List Entry → List Text
  | [] => []
  | .spread e :: rest => e.freeNames ++ entriesFree rest
  | .pair key value :: rest => key.freeNames ++ (value.freeNames ++ entriesFree rest)

/-- The names that clauses and what is emitted under them, whose free names are `emitted`, take from around them: a
`for` clause binds its targets in all that comes after it, and not in its own iterable. -/
def clausesFree (emitted : List Text) : List Clause → List Text
  | [] => emitted
  | .when test :: rest => test.freeNames ++ clausesFree emitted rest
  | .each targets iterable :: rest => iterable.freeNames ++ (clausesFree emitted rest).filter fun name => !targets.contains name

def argumentsFree : List Argument → List Text
  | [] => []
  | .positional e :: rest => e.freeNames ++ argumentsFree rest
  | .keyword _ e :: rest => e.freeNames ++ argumentsFree rest
  | .spread e :: rest => e.freeNames ++ argumentsFree rest

end

/-! ## Environments that agree -/

/-- What a name means in an environment, under the variables of a frame. -/
def Env.meaning? (env : Env) (frame : Frame) (name : Text) : Option Value :=
  frame.lookup name <|> env.locals.lookup name <|> env.context.lookup name

/-- Objects are called and indexed and operations done alike, and each of the names means the same, or nothing, on both sides. -/
structure Env.Agree (names : List Text) (env : Env) (frame : Frame) (env' : Env) (frame' : Frame) : Prop where
  invoke : env.invoke = env'.invoke
  subscript : env.subscript = env'.subscript
  operate : env.operate = env'.operate
  names : ∀ name ∈ names, env.meaning? frame name = env'.meaning? frame' name

namespace Eval

theorem lookup_eq (env : Env) (frame : Frame) (name : Text) :
    lookup env frame name = match env.meaning? frame name with
      | some v => .ok v
      | none => .error (.undefinedName name) := rfl

/-- Each target of a clause is bound. -/
theorem lookup_bind {targets : List Text} {item : Value} {vars : Frame} (bound : bind targets item = .ok vars) {name : Text}
    (target : name ∈ targets) : ∃ v, vars.lookup name = some v := by
  have named : name ∈ vars.map Prod.fst := by
    unfold bind at bound
    split at bound
    · cases bound
      simpa using target
    · next values _ =>
      split at bound
      · next whole =>
        cases bound
        rw [List.map_reverse,List.mem_reverse,List.map_fst_zip (Nat.le_of_eq whole.symm)]
        exact target
      · cases bound
    · cases bound
  obtain ⟨p,listed,rfl⟩ := List.mem_map.mp named
  cases found : vars.lookup p.1 with
  | some v => exact ⟨v,rfl⟩
  | none =>
    have differs := List.lookup_eq_none_iff.mp found p listed
    simp at differs

end Eval

namespace Env.Agree

variable {names more targets : List Text} {env env' : Env} {frame frame' vars : Frame}

theorem left (agree : Agree (names ++ more) env frame env' frame') : Agree names env frame env' frame' :=
  ⟨agree.invoke,agree.subscript,agree.operate,fun name free => agree.names name (List.mem_append_left _ free)⟩

theorem right (agree : Agree (names ++ more) env frame env' frame') : Agree more env frame env' frame' :=
  ⟨agree.invoke,agree.subscript,agree.operate,fun name free => agree.names name (List.mem_append_right _ free)⟩

theorem lookup {name : Text} (agree : Agree [name] env frame env' frame') : Eval.lookup env frame name = Eval.lookup env' frame' name := by
  rw [Eval.lookup_eq,Eval.lookup_eq,agree.names name (List.mem_singleton_self name)]

/-- Under the variables of a clause the names agree that are bound or agree around it. -/
theorem bind {item : Value} (agree : Agree (names.filter fun name => !targets.contains name) env frame env' frame')
    (bound : Eval.bind targets item = .ok vars) : Agree names env (vars ++ frame) env' (vars ++ frame') where
  invoke := agree.invoke
  subscript := agree.subscript
  operate := agree.operate
  names name free := by
    unfold Env.meaning?
    rw [List.lookup_append,List.lookup_append]
    cases found : vars.lookup name with
    | some v => rfl
    | none =>
      have outside : name ∉ targets := by
        intro target
        obtain ⟨v,known⟩ := Eval.lookup_bind bound target
        rw [found] at known
        cases known
      exact agree.names name (List.mem_filter.mpr ⟨free,by simpa using outside⟩)

theorem index (agree : Agree names env frame env' frame') (object key : Value) : Eval.index env object key = Eval.index env' object key := by
  unfold Eval.index
  rw [agree.subscript]

theorem call (agree : Agree names env frame env' frame') (name : Text) (callee : Value) (args : Eval.Arguments) :
    Eval.call env name callee args = Eval.call env' name callee args := by
  unfold Eval.call
  rw [agree.invoke]

end Env.Agree

/-! ## Evaluation where the free names agree -/

namespace Eval

variable {env env' : Env}

mutual

/-- The outcome of an expression depends on its free names alone. -/
theorem eval_agree {frame frame' : Frame} (e : Expr) (agree : Env.Agree e.freeNames env frame env' frame') :
    eval env frame e = eval env' frame' e := by
  cases e with
  | literal l => rfl
  | name name => rw [eval,eval,agree.lookup]
  | list items => rw [eval,eval,evalItems_agree items agree]
  | set items => rw [eval,eval,evalItems_agree items agree]
  | mapping entries => rw [eval,eval,evalEntries_agree entries [] agree]
  | comprehension kind element clauses =>
    rw [eval,eval,evalClauses_agree clauses agree fun inner inner' agree => by rw [eval_agree element agree]]
  | mappingComprehension key value clauses =>
    rw [eval,eval,evalClauses_agree clauses agree fun inner inner' agree => by
      rw [eval_agree key agree.left,eval_agree value agree.right]]
  | unary op argument => rw [eval,eval,eval_agree argument agree]
  | binary op left right => rw [eval,eval,eval_agree left agree.left,eval_agree right agree.right,agree.operate]
  | logical op left right => rw [eval,eval,eval_agree left agree.left,eval_agree right agree.right]
  | compare first rest =>
    have chain (left : Value) := evalChain_agree rest left agree.right
    simp only [eval,eval_agree first agree.left,chain]
  | conditional test consequent alternate =>
    rw [eval,eval,eval_agree test agree.left,eval_agree consequent agree.right.left,eval_agree alternate agree.right.right]
  | call callee args =>
    have arguments (name : Text) := evalArguments_agree args name ⟨[],[]⟩ agree.right
    simp only [eval,eval_agree callee agree.left,arguments,agree.call]
  | index object key => simp only [eval,eval_agree object agree.left,eval_agree key agree.right,agree.index]
  | slice object start stop step =>
    rw [eval,eval,eval_agree object agree.left,evalBound_agree start agree.right.left,
      evalBound_agree stop agree.right.right.left,evalBound_agree step agree.right.right.right]

theorem evalBound_agree {frame frame' : Frame} (bound : Option Expr) (agree : Env.Agree (boundFree bound) env frame env' frame') :
    evalBound env frame bound = evalBound env' frame' bound := by
  cases bound with
  | none => rfl
  | some e => exact eval_agree e agree

theorem evalChain_agree {frame frame' : Frame} (links : List (CompareOp × Expr)) (left : Value)
    (agree : Env.Agree (linksFree links) env frame env' frame') : evalChain env frame left links = evalChain env' frame' left links := by
  cases links with
  | nil => rfl
  | cons link rest =>
    obtain ⟨op,operand⟩ := link
    have chain (left : Value) := evalChain_agree rest left agree.right
    simp only [evalChain,eval_agree operand agree.left,chain]

theorem evalItems_agree {frame frame' : Frame} (items : List Item) (agree : Env.Agree (itemsFree items) env frame env' frame') :
    evalItems env frame items = evalItems env' frame' items := by
  cases items with
  | nil => rfl
  | cons item rest =>
    cases item with
    | one e => rw [evalItems,evalItems,eval_agree e agree.left,evalItems_agree rest agree.right]
    | spread e => rw [evalItems,evalItems,eval_agree e agree.left,evalItems_agree rest agree.right]

theorem evalEntries_agree {frame frame' : Frame} (entries : List Entry) (before : Pairs)
    (agree : Env.Agree (entriesFree entries) env frame env' frame') :
    evalEntries env frame before entries = evalEntries env' frame' before entries := by
  cases entries with
  | nil => rfl
  | cons entry rest =>
    cases entry with
    | spread e =>
      have later (before : Pairs) := evalEntries_agree rest before agree.right
      simp only [evalEntries,eval_agree e agree.left,later]
    | pair key value =>
      have later (before : Pairs) := evalEntries_agree rest before agree.right.right
      simp only [evalEntries,eval_agree key agree.left,eval_agree value agree.right.left,later]

/-- Clauses lead to the same, if what is emitted does wherever the names that it takes agree. -/
theorem evalClauses_agree {frame frame' : Frame} {emitted : List Text} {emit emit' : Frame → StoreM (Text × Value)}
    (clauses : List Clause) (agree : Env.Agree (clausesFree emitted clauses) env frame env' frame')
    (emits : ∀ inner inner', Env.Agree emitted env inner env' inner' → emit inner = emit' inner') :
    evalClauses env frame clauses emit = evalClauses env' frame' clauses emit' := by
  cases clauses with
  | nil => rw [evalClauses,evalClauses,emits frame frame' agree]
  | cons clause rest =>
    cases clause with
    | when test => rw [evalClauses,evalClauses,eval_agree test agree.left,evalClauses_agree rest agree.right emits]
    | each targets iterable =>
      have each (item : Value) : (do evalClauses env ((← check (bind targets item)) ++ frame) rest emit) =
          (do evalClauses env' ((← check (bind targets item)) ++ frame') rest emit') :=
        check_bind_congr fun vars bound => evalClauses_agree rest (agree.right.bind bound) emits
      simp only [evalClauses,eval_agree iterable agree.left,each]

theorem evalArguments_agree {frame frame' : Frame} (args : List Argument) (callee : Text) (before : Arguments)
    (agree : Env.Agree (argumentsFree args) env frame env' frame') :
    evalArguments env frame callee before args = evalArguments env' frame' callee before args := by
  cases args with
  | nil => rfl
  | cons argument rest =>
    cases argument with
    | positional e =>
      have later (before : Arguments) := evalArguments_agree rest callee before agree.right
      simp only [evalArguments,eval_agree e agree.left,later]
    | keyword name e =>
      have later (before : Arguments) := evalArguments_agree rest callee before agree.right
      simp only [evalArguments,eval_agree e agree.left,later]
    | spread e =>
      have later (before : Arguments) := evalArguments_agree rest callee before agree.right
      simp only [evalArguments,eval_agree e agree.left,later]

end

end Eval

/-! ## Surroundings -/

mutual

/-- An expression with another one in the place of a name, wherever the name stands. -/
def Expr.within (filler : Expr) (hole : Text) : Expr → Expr
  | .literal l => .literal l
  | .name name => if name = hole then filler else .name name
  | .list items => .list (withinItems filler hole items)
  | .set items => .set (withinItems filler hole items)
  | .mapping entries => .mapping (withinEntries filler hole entries)
  | .comprehension kind element clauses => .comprehension kind (filler.within hole element) (withinClauses filler hole clauses)
  | .mappingComprehension key value clauses =>
    .mappingComprehension (filler.within hole key) (filler.within hole value) (withinClauses filler hole clauses)
  | .unary op argument => .unary op (filler.within hole argument)
  | .binary op left right => .binary op (filler.within hole left) (filler.within hole right)
  | .logical op left right => .logical op (filler.within hole left) (filler.within hole right)
  | .compare first rest => .compare (filler.within hole first) (withinLinks filler hole rest)
  | .conditional test consequent alternate =>
    .conditional (filler.within hole test) (filler.within hole consequent) (filler.within hole alternate)
  | .call callee args => .call (filler.within hole callee) (withinArguments filler hole args)
  | .index object key => .index (filler.within hole object) (filler.within hole key)
  | .slice object start stop step =>
    .slice (filler.within hole object) (withinBound filler hole start) (withinBound filler hole stop) (withinBound filler hole step)

def withinBound (filler : Expr) (hole : Text) : Option Expr → Option Expr
  | none => none
  | some e => some (filler.within hole e)

def withinLinks (filler : Expr) (hole : Text) : List (CompareOp × Expr) → List (CompareOp × Expr)
  | [] => []
  | (op,e) :: rest => (op,filler.within hole e) :: withinLinks filler hole rest

def withinItems (filler : Expr) (hole : Text) : List Item → List Item
  | [] => []
  | .one e :: rest => .one (filler.within hole e) :: withinItems filler hole rest
  | .spread e :: rest => .spread (filler.within hole e) :: withinItems filler hole rest

def withinEntries (filler : Expr) (hole : Text) : List Entry → List Entry
  | [] => []
  | .spread e :: rest => .spread (filler.within hole e) :: withinEntries filler hole rest
  | .pair key value :: rest => .pair (filler.within hole key) (filler.within hole value) :: withinEntries filler hole rest

def withinClauses (filler : Expr) (hole : Text) : List Clause → List Clause
  | [] => []
  | .when test :: rest => .when (filler.within hole test) :: withinClauses filler hole rest
  | .each targets iterable :: rest => .each targets (filler.within hole iterable) :: withinClauses filler hole rest

def withinArguments (filler : Expr) (hole : Text) : List Argument → List Argument
  | [] => []
  | .positional e :: rest => .positional (filler.within hole e) :: withinArguments filler hole rest
  | .keyword name e :: rest => .keyword name (filler.within hole e) :: withinArguments filler hole rest
  | .spread e :: rest => .spread (filler.within hole e) :: withinArguments filler hole rest

end

/-- A comprehension of elements or of pairs. -/
def Expr.isComprehension : Expr → Bool
  | .comprehension .. | .mappingComprehension .. => true
  | _ => false

namespace Eval

/-- Two expressions of the same outcome, called by the same name. -/
structure Alike (env : Env) (c d : Expr) : Prop where
  outcome : ∀ frame, eval env frame c = eval env frame d
  callee : ∀ v, calleeName c v = calleeName d v

theorem calleeName_comprehension {c : Expr} (comprehends : c.isComprehension = true) (v : Value) : calleeName c v = v.typeName := by
  cases c <;> first | rfl | cases comprehends

theorem alike_of_comprehension {env : Env} {c d : Expr} (one : c.isComprehension = true) (other : d.isComprehension = true)
    (same : ∀ frame, eval env frame c = eval env frame d) : Alike env c d :=
  ⟨same,fun v => by rw [calleeName_comprehension one,calleeName_comprehension other]⟩

section Within

variable {env : Env} {hole : Text} {c d : Expr}

/-- A callee is called by the same name, whichever of the two is put into it. -/
theorem calleeName_within (alike : Alike env c d) (callee : Expr) (v : Value) :
    calleeName (c.within hole callee) v = calleeName (d.within hole callee) v := by
  cases callee with
  | name name =>
    rw [Expr.within,Expr.within]
    split
    · exact alike.callee v
    · rfl
  | _ => rfl

mutual

/-- What surrounds an expression is told its outcome and nothing else. -/
theorem eval_within (alike : Alike env c d) (frame : Frame) (e : Expr) :
    eval env frame (c.within hole e) = eval env frame (d.within hole e) := by
  cases e with
  | literal l => rfl
  | name name =>
    rw [Expr.within,Expr.within]
    split
    · exact alike.outcome frame
    · rfl
  | list items => rw [Expr.within,Expr.within,eval,eval,evalItems_within alike frame items]
  | set items => rw [Expr.within,Expr.within,eval,eval,evalItems_within alike frame items]
  | mapping entries => rw [Expr.within,Expr.within,eval,eval,evalEntries_within alike frame entries]
  | comprehension kind element clauses =>
    rw [Expr.within,Expr.within,eval,eval,evalClauses_within alike frame clauses fun inner => by
      rw [eval_within alike inner element]]
  | mappingComprehension key value clauses =>
    rw [Expr.within,Expr.within,eval,eval,evalClauses_within alike frame clauses fun inner => by
      rw [eval_within alike inner key,eval_within alike inner value]]
  | unary op argument => rw [Expr.within,Expr.within,eval,eval,eval_within alike frame argument]
  | binary op left right =>
    rw [Expr.within,Expr.within,eval,eval,eval_within alike frame left,eval_within alike frame right]
  | logical op left right =>
    rw [Expr.within,Expr.within,eval,eval,eval_within alike frame left,eval_within alike frame right]
  | compare first rest =>
    have chain (left : Value) := evalChain_within alike frame rest left
    simp only [Expr.within,eval,eval_within alike frame first,chain]
  | conditional test consequent alternate =>
    rw [Expr.within,Expr.within,eval,eval,eval_within alike frame test,eval_within alike frame consequent,
      eval_within alike frame alternate]
  | call callee args =>
    have arguments (name : Text) := evalArguments_within alike frame args name ⟨[],[]⟩
    simp only [Expr.within,eval,eval_within alike frame callee,calleeName_within alike,arguments]
  | index object key =>
    rw [Expr.within,Expr.within,eval,eval,eval_within alike frame object,eval_within alike frame key]
  | slice object start stop step =>
    rw [Expr.within,Expr.within,eval,eval,eval_within alike frame object,evalBound_within alike frame start,
      evalBound_within alike frame stop,evalBound_within alike frame step]

theorem evalBound_within (alike : Alike env c d) (frame : Frame) (bound : Option Expr) :
    evalBound env frame (withinBound c hole bound) = evalBound env frame (withinBound d hole bound) := by
  cases bound with
  | none => rfl
  | some e => exact eval_within alike frame e

theorem evalChain_within (alike : Alike env c d) (frame : Frame) (links : List (CompareOp × Expr)) (left : Value) :
    evalChain env frame left (withinLinks c hole links) = evalChain env frame left (withinLinks d hole links) := by
  cases links with
  | nil => rfl
  | cons link rest =>
    obtain ⟨op,operand⟩ := link
    have chain (left : Value) := evalChain_within alike frame rest left
    simp only [withinLinks,evalChain,eval_within alike frame operand,chain]

theorem evalItems_within (alike : Alike env c d) (frame : Frame) (items : List Item) :
    evalItems env frame (withinItems c hole items) = evalItems env frame (withinItems d hole items) := by
  cases items with
  | nil => rfl
  | cons item rest =>
    cases item with
    | one e =>
      rw [withinItems,withinItems,evalItems,evalItems,eval_within alike frame e,evalItems_within alike frame rest]
    | spread e =>
      rw [withinItems,withinItems,evalItems,evalItems,eval_within alike frame e,evalItems_within alike frame rest]

theorem evalEntries_within (alike : Alike env c d) (frame : Frame) (entries : List Entry) (before : Pairs) :
    evalEntries env frame before (withinEntries c hole entries) = evalEntries env frame before (withinEntries d hole entries) := by
  cases entries with
  | nil => rfl
  | cons entry rest =>
    have later (before : Pairs) := evalEntries_within alike frame rest before
    cases entry with
    | spread e => simp only [withinEntries,evalEntries,eval_within alike frame e,later]
    | pair key value =>
      simp only [withinEntries,evalEntries,eval_within alike frame key,eval_within alike frame value,later]

theorem evalClauses_within (alike : Alike env c d) {emit emit' : Frame → StoreM (Text × Value)} (frame : Frame)
    (clauses : List Clause) (emits : ∀ inner, emit inner = emit' inner) :
    evalClauses env frame (withinClauses c hole clauses) emit = evalClauses env frame (withinClauses d hole clauses) emit' := by
  cases clauses with
  | nil => rw [withinClauses,withinClauses,evalClauses,evalClauses,emits frame]
  | cons clause rest =>
    have later (frame : Frame) := evalClauses_within alike frame rest emits
    cases clause with
    | when test => simp only [withinClauses,evalClauses,eval_within alike frame test,later]
    | each targets iterable => simp only [withinClauses,evalClauses,eval_within alike frame iterable,later]

theorem evalArguments_within (alike : Alike env c d) (frame : Frame) (args : List Argument) (callee : Text) (before : Arguments) :
    evalArguments env frame callee before (withinArguments c hole args) =
      evalArguments env frame callee before (withinArguments d hole args) := by
  cases args with
  | nil => rfl
  | cons argument rest =>
    have later (before : Arguments) := evalArguments_within alike frame rest callee before
    cases argument with
    | positional e => simp only [withinArguments,evalArguments,eval_within alike frame e,later]
    | keyword name e => simp only [withinArguments,evalArguments,eval_within alike frame e,later]
    | spread e => simp only [withinArguments,evalArguments,eval_within alike frame e,later]

end

end Within

/-- A name after an expression means what it means around it, whatever the expression binds. -/
theorem eval_pair_name_iff {env : Env} {frame : Frame} {e : Expr} {s t u : Store} {v : Value} {r : Except Thrown Value}
    (run : Runs (eval env frame e) s (.ok v) t) (name : Text) :
    Runs (eval env frame (.list [.one e,.one (.name name)])) s r u ↔
      Runs (match env.meaning? frame name with
        | some w => compute (Compute.list [v,w])
        | none => refuse (.undefinedName name)) t r u := by
  simp only [eval,evalItems,bind_assoc,pure_bind]
  rw [Runs.bind_iff run,lookup_eq]
  cases env.meaning? frame name with
  | some w => exact Iff.rfl
  | none => exact Iff.rfl

/-- An expression is evaluated alike wherever its free names mean the same. A comprehension tells its surroundings its
outcome alone, so another one of the same outcome can stand in its place whatever either of them binds; and a name after an
expression means what it means around it. -/
theorem eval_of_freeNames {env env' : Env} {frame frame' : Frame} (e : Expr) (agree : Env.Agree e.freeNames env frame env' frame') :
    eval env frame e = eval env' frame' e ∧
      (∀ (c d : Expr) (hole : Text), c.isComprehension = true → d.isComprehension = true →
        (∀ inner, eval env inner c = eval env inner d) → eval env frame (c.within hole e) = eval env frame (d.within hole e)) ∧
      ∀ (c : Expr) (name : Text) (s t u : Store) (v : Value) (r : Except Thrown Value), Runs (eval env frame c) s (.ok v) t →
        (Runs (eval env frame (.list [.one c,.one (.name name)])) s r u ↔
          Runs (match env.meaning? frame name with
            | some w => compute (Compute.list [v,w])
            | none => refuse (.undefinedName name)) t r u) :=
  ⟨eval_agree e agree,fun _ _ _ one other same => eval_within (alike_of_comprehension one other same) frame e,
    fun _ name _ _ _ _ _ run => eval_pair_name_iff run name⟩

/-- The copy of a list, where `x` means a text in one environment and nothing in the other. -/
theorem eval_of_freeNames_copy :
    eval (Expression.env (Host.bare [] "") .exhausted [("xs",.list 0 [.null])] [("x",.text "a")]) []
        (.comprehension .list (.name "x") [.each ["x"] (.name "xs")]) =
      eval (Expression.env (Host.bare [] "") .exhausted [] [("xs",.list 0 [.null])]) []
        (.comprehension .list (.name "x") [.each ["x"] (.name "xs")]) := by
  have agree : Env.Agree (Expr.comprehension .list (.name "x") [.each ["x"] (.name "xs")]).freeNames
      (Expression.env (Host.bare [] "") .exhausted [("xs",.list 0 [.null])] [("x",.text "a")]) []
      (Expression.env (Host.bare [] "") .exhausted [] [("xs",.list 0 [.null])]) [] :=
    { invoke := rfl
      subscript := rfl
      operate := rfl
      names := fun name free => by
        obtain rfl : name = "xs" := by simpa [Expr.freeNames,clausesFree] using free
        rfl }
  exact (eval_of_freeNames _ agree).1

end Eval
end ConfTree
