import ConfTree.Proofs.Judgement
import ConfTree.Tree.Outline
import ConfTree.Tree.Expression

/-!
Evaluation and navigation under a judgement. Expressions, functions of objects and addresses do not write nodes
themselves: whatever is judged of the work that they refer to (`Judgement.Sound`) holds of them too. So they
keep a discipline that this work keeps, and end where it does. Three things can be without an end that only look:
the search for the session, where containers go in a circle, a call that counts for ever, and an operation that does.
-/
namespace ConfTree

open StoreM

/-- Work on a tree all of which keeps a discipline. -/
structure Discipline.Sound (D : Discipline) (calls : Calls) : Prop where
  resolve : ∀ id, D.Keeps (calls.resolve id)
  settle : ∀ id, D.Keeps (calls.settle id)
  settled : ∀ id, D.Keeps (calls.settled id)
  child : ∀ id selector, D.Keeps (calls.child id selector)
  declaration : ∀ id, D.Keeps (calls.declaration id)
  apply : ∀ m id, D.Keeps (calls.apply m id)
  invoke : ∀ o args keyword, D.Keeps (calls.invoke o args keyword)
  operate : ∀ op v w, D.Keeps (calls.operate op v w)

theorem Discipline.Sound.mono {D E : Discipline} {calls : Calls} (sound : D.Sound calls)
    (weaker : ∀ {α : Type} (a : StoreM α), D.Keeps a → E.Keeps a) : E.Sound calls :=
  ⟨fun _ => weaker _ (sound.resolve _),fun _ => weaker _ (sound.settle _),fun _ => weaker _ (sound.settled _),
    fun _ _ => weaker _ (sound.child _ _),fun _ => weaker _ (sound.declaration _),fun _ _ => weaker _ (sound.apply _ _),
    fun _ _ _ => weaker _ (sound.invoke _ _ _),fun _ _ _ => weaker _ (sound.operate _ _ _)⟩

/-- Work with no depth left keeps everything. -/
theorem Discipline.Sound.exhausted {D : Discipline} : D.Sound .exhausted :=
  ⟨fun _ => .unending,fun _ => .unending,fun _ => .unending,fun _ _ => .unending,fun _ => .unending,fun _ _ => .unending,
    fun _ _ _ => .unending,fun _ _ _ => .unending⟩

/-- Whether a call of a function counts for ever: the terms of its progression never come to the stop. -/
def Functions.isEndless (f : Builtin) (args : List Value) : Bool :=
  match f with
  | .range =>
    match rangeBounds args with
    | .ok (start,stop,step) => (Sequence.progression start stop step).isNone
    | .error _ => false
  | _ => false

/-- Whether an operation counts for ever: it repeats a list, and counting the times does not end. -/
def Operators.isEndless (op : BinaryOp) (v w : Value) : Bool :=
  (repetition? op v w).any fun (items,times) => (repeatItems items times).isNone

/-- A judgement holds of the work on a tree by which nodes are found and resolved. -/
structure Judgement.OnTree (J : Judgement) (calls : Calls) : Prop where
  resolve : ∀ id, J.Holds (calls.resolve id)
  settle : ∀ id, J.Holds (calls.settle id)
  settled : ∀ id, J.Holds (calls.settled id)
  child : ∀ id selector, J.Holds (calls.child id selector)

/-- A judgement holds of the work on a tree that expressions refer to, and of the search for the session. -/
structure Judgement.Sound (J : Judgement) (calls : Calls) : Prop extends J.OnTree calls where
  attached : ∀ id, J.Holds (requireSession id)
  invoke : ∀ o args keyword, J.Holds (calls.invoke o args keyword)
  operate : ∀ op v w, J.Holds (calls.operate op v w)

theorem Discipline.Sound.judged {D : Discipline} {calls : Calls} (sound : D.Sound calls) : D.keeping.Sound calls :=
  ⟨⟨sound.resolve,sound.settle,sound.settled,sound.child⟩,fun id => (Still.requireSession id).keeps,sound.invoke,sound.operate⟩

namespace Navigate

/-- Selects a child of a settled node, whose body is given. -/
def selectIn (calls : Calls) (node : NodeId) (selector : Selector) (body : Body) : StoreM NodeId := do
  match body,selector with
  | .scalar ..,_ => throwCause (.address (.scalarSelect selector (← nameOf node)))
  | .sequence ..,.key _ => throwCause (.address (.sequenceSelect selector (← nameOf node)))
  | .sequence items ..,.index index =>
    let place ← itemPlace node items.length index
    current (items[place]?.getD node)
  | .mapping ..,.index index => throwCause (.address (.mappingIndex index (mappingName (← nameOf node))))
  | .mapping ..,.key key =>
    let (entry,entryOnly) ← selectEntry node key
    if entryOnly then return entry
    entryValue calls entry
  | .entry ..,_ => do calls.child (← entryValue calls node) selector

theorem selectChild_eq (calls : Calls) (node : NodeId) (selector : Selector) :
    selectChild calls node selector = (do selectIn calls node selector (← getNode node).body) := rfl

end Navigate

namespace Judgement

variable {J : Judgement}

/-! ## Expressions and functions -/

/-- An environment in which a judgement holds of calling, indexing and operations. -/
structure Kept (J : Judgement) (env : Env) : Prop where
  invoke : ∀ o args keyword, J.Holds (env.invoke o args keyword)
  subscript : ∀ o key, J.Holds (env.subscript o key)
  operate : ∀ op v w, J.Holds (env.operate op v w)

namespace Kept

variable {env : Env}

theorem index (kept : J.Kept env) (object key : Value) : J.Holds (Eval.index env object key) := by
  unfold Eval.index
  cases Sequence.index? object key with
  | some found =>
    cases found with
    | ok v => exact .pure v
    | error failure => exact (Quiet.throwFailure _).judged
  | none =>
    cases object with
    | object o =>
      dsimp only
      split
      · exact kept.subscript _ _
      · exact (Quiet.refuse _).judged
    | _ => exact (Quiet.refuse _).judged

theorem call (kept : J.Kept env) (name : Text) (callee : Value) (args : Eval.Arguments) : J.Holds (Eval.call env name callee args) := by
  have refused (issue : EvalIssue) : J.Holds (refuse issue : StoreM Value) := (Quiet.refuse issue).judged
  cases callee with
  | object o =>
    rw [Eval.call]
    refine Holds.checked (Quiet.refuse _).judged ((kept.invoke _ _ _).tryCatch fun e => ?_)
    cases e with
    | fault id => exact .throw _
    | foreign message => exact refused _
  | _ => exact refused _

mutual

theorem eval (kept : J.Kept env) (frame : Frame) (e : Expr) : J.Holds (Eval.eval env frame e) := by
  cases e with
  | literal l => exact .pure _
  | name name => exact (Quiet.check _).judged
  | list items => exact (evalItems kept frame items).bind fun _ => (Quiet.compute _).judged
  | set items => exact (evalItems kept frame items).bind fun _ => (Quiet.compute _).judged
  | mapping entries => exact (evalEntries kept frame [] entries).bind fun _ => (Quiet.compute _).judged
  | comprehension kind element clauses =>
    exact (evalClauses kept frame clauses _ fun inner => (eval kept inner element).bind fun _ => .pure _).bind fun _ =>
      (Quiet.compute _).judged
  | mappingComprehension key value clauses =>
    refine (evalClauses kept frame clauses _ fun inner => ?_).bind fun _ => (Quiet.compute _).judged
    exact (eval kept inner key).bind fun _ => (Quiet.check _).judged.bind fun _ => (eval kept inner value).bind fun _ => .pure _
  | unary op argument => exact (eval kept frame argument).bind fun _ => (Quiet.check _).judged
  | binary op left right => exact (eval kept frame left).bind fun l => (eval kept frame right).bind (kept.operate op l)
  | logical op left right =>
    refine (eval kept frame left).bind fun l => ?_
    split
    · exact .pure _
    · exact eval kept frame right
  | compare first rest => exact (eval kept frame first).bind fun l => evalChain kept frame l rest
  | conditional test consequent alternate =>
    refine (eval kept frame test).bind fun v => ?_
    split
    · exact eval kept frame consequent
    · exact eval kept frame alternate
  | call callee args =>
    exact (eval kept frame callee).bind fun target => (evalArguments kept frame _ _ args).bind fun _ => kept.call _ _ _
  | index object key => exact (eval kept frame object).bind fun o => (eval kept frame key).bind fun _ => kept.index _ _
  | slice object start stop step =>
    exact (eval kept frame object).bind fun o => (evalBound kept frame start).bind fun _ =>
      (evalBound kept frame stop).bind fun _ => (evalBound kept frame step).bind fun _ => (Quiet.compute _).judged

theorem evalBound (kept : J.Kept env) (frame : Frame) (e : Option Expr) : J.Holds (Eval.evalBound env frame e) := by
  cases e with
  | none => exact .pure _
  | some e => exact eval kept frame e

theorem evalChain (kept : J.Kept env) (frame : Frame) (left : Value) (links : List (CompareOp × Expr)) :
    J.Holds (Eval.evalChain env frame left links) := by
  cases links with
  | nil => exact .pure _
  | cons link rest =>
    obtain ⟨op,operand⟩ := link
    refine (eval kept frame operand).bind fun right => (Quiet.check _).judged.bind fun holds => ?_
    split
    · exact evalChain kept frame right rest
    · exact .pure _

theorem evalItems (kept : J.Kept env) (frame : Frame) (items : List Item) : J.Holds (Eval.evalItems env frame items) := by
  cases items with
  | nil => exact .pure _
  | cons item rest =>
    cases item with
    | one e => exact (eval kept frame e).bind fun _ => (evalItems kept frame rest).bind fun _ => .pure _
    | spread e =>
      exact (eval kept frame e).bind fun _ => (Quiet.check _).judged.bind fun _ => (evalItems kept frame rest).bind fun _ => .pure _

theorem evalEntries (kept : J.Kept env) (frame : Frame) (before : Pairs) (entries : List Entry) :
    J.Holds (Eval.evalEntries env frame before entries) := by
  cases entries with
  | nil => exact .pure _
  | cons entry rest =>
    cases entry with
    | spread e => exact (eval kept frame e).bind fun _ => (Quiet.check _).judged.bind fun _ => evalEntries kept frame _ rest
    | pair key value =>
      exact (eval kept frame key).bind fun _ => (Quiet.check _).judged.bind fun _ => (eval kept frame value).bind fun _ =>
        evalEntries kept frame _ rest

theorem evalClauses (kept : J.Kept env) (frame : Frame) (clauses : List Clause) (emit : Frame → StoreM (Text × Value))
    (emits : ∀ inner, J.Holds (emit inner)) : J.Holds (Eval.evalClauses env frame clauses emit) := by
  cases clauses with
  | nil => exact (emits frame).bind fun _ => .pure _
  | cons clause rest =>
    cases clause with
    | when test =>
      refine (eval kept frame test).bind fun v => ?_
      split
      · exact evalClauses kept frame rest emit emits
      · exact .pure _
    | each targets iterable =>
      refine (eval kept frame iterable).bind fun _ => (Quiet.check _).judged.bind fun items => ?_
      refine (Holds.mapM items fun item _ => ?_).bind fun _ => .pure _
      exact (Quiet.check _).judged.bind fun vars => evalClauses kept _ rest emit emits

theorem evalArguments (kept : J.Kept env) (frame : Frame) (callee : Text) (before : Eval.Arguments) (args : List Argument) :
    J.Holds (Eval.evalArguments env frame callee before args) := by
  cases args with
  | nil => exact .pure _
  | cons argument rest =>
    cases argument with
    | positional e => exact (eval kept frame e).bind fun _ => evalArguments kept frame callee _ rest
    | keyword name e =>
      exact (eval kept frame e).bind fun _ => (Quiet.check _).judged.bind fun _ => evalArguments kept frame callee _ rest
    | spread e =>
      exact (eval kept frame e).bind fun _ => (Quiet.check _).judged.bind fun _ => evalArguments kept frame callee _ rest

end

end Kept

theorem join_quiet (args : List Value) (keyword : Pairs) : Quiet (Functions.join args keyword) :=
  (Quiet.check _).bind fun _ => by
    split
    · exact (Quiet.check _).bind fun parts => (Holds.mapM parts fun v _ => Quiet.textOf v).bind fun _ => .pure _
    · exact Quiet.refuse _

theorem onText_quiet (f : Builtin) (g : Text → Text) (args : List Value) : Quiet (Functions.onText f g args) :=
  (Quiet.check _).bind fun _ => (Quiet.textOf _).bind fun _ => .pure _

theorem range_quiet {args : List Value} (ends : Functions.isEndless .range args = false) (host : Host) (keyword : Pairs) :
    Quiet (Functions.call host .range args keyword) := by
  intro s
  rw [Functions.call]
  simp only [Functions.isEndless] at ends
  cases bounds : Functions.rangeBounds args with
  | error issue => exact ⟨_,_,Runs.bind_error (e := .fault s.faults.size) rfl,rfl,rfl⟩
  | ok found =>
    obtain ⟨start,stop,step⟩ := found
    simp only [bounds,Option.isNone_eq_false_iff,Option.isSome_iff_exists] at ends
    obtain ⟨terms,found⟩ := ends
    obtain ⟨r,t,run,alike⟩ := Quiet.compute (Compute.list (terms.map .number)) s
    refine ⟨r,t,Runs.bind (v := (start,stop,step)) rfl ?_,alike⟩
    dsimp only
    rw [found]
    exact run

theorem functions_quiet (host : Host) {f : Builtin} {args : List Value} (ends : Functions.isEndless f args = false)
    (keyword : Pairs) : Quiet (Functions.call host f args keyword) := by
  cases f with
  | range => exact range_quiet ends host keyword
  | keys | values | items | zip | enumerate | sorted | reversed => exact (Quiet.check _).bind fun _ => Quiet.compute _
  | any | all => exact (Quiet.check _).bind fun _ => .pure _
  | join => exact join_quiet args keyword
  | upper | lower => exact onText_quiet _ _ args
  | env => exact Quiet.compute _
  | parent | child | rawValue => exact .pure _
  | len | min | max | sum | abs | round | floor | ceil | cwd => exact Quiet.check _

theorem operate_quiet {op : BinaryOp} {v w : Value} (ends : Operators.isEndless op v w = false) : Quiet (Eval.operate op v w) := by
  unfold Eval.operate
  cases repeats : Operators.repetition? op v w with
  | none => exact Quiet.compute _
  | some given =>
    obtain ⟨items,times⟩ := given
    cases counted : Operators.repeatItems items times with
    | some repeated =>
      dsimp only
      rw [counted]
      exact Quiet.compute _
    | none =>
      simp [Operators.isEndless,repeats,counted] at ends

theorem cast_quiet (type : TypeName) (args : List Value) (keyword : Pairs) : Quiet (Cast.invoke type args keyword) := by
  have text (v : Value) : Quiet (Cast.toText v) := by
    cases v with
    | undefined => exact .pure _
    | _ => exact Quiet.textOf _
  unfold Cast.invoke
  cases type with
  | str =>
    dsimp only
    exact Holds.checked (Quiet.refuse _) ((text _).bind fun _ => .pure _)
  | _ =>
    dsimp only
    exact Holds.checked (Quiet.refuse _) (Quiet.compute _)

/-! ## Navigation, objects and sources -/

section Calls

variable {calls : Calls}

theorem entryValue_holds (settles : ∀ id, J.Holds (calls.settle id)) (entry : NodeId) : J.Holds (Navigate.entryValue calls entry) :=
  (settles entry).bind fun _ => Quiet.get.judged.bind fun _ => .pure _

theorem itemPlace_quiet (node : NodeId) (length : Nat) (index : Number) : Quiet (Navigate.itemPlace node length index) := by
  unfold Navigate.itemPlace
  split
  · exact (Quiet.nameOf node).bind fun _ => Quiet.throwCause _
  · extract_lets place
    split
    · exact (Quiet.nameOf node).bind fun _ => (Quiet.throwCause _).bind fun _ => .pure _
    · exact .pure _

theorem selectEntry_quiet (node : NodeId) (key : Text) : Quiet (Navigate.selectEntry node key) :=
  (Quiet.nameOf node).bind fun _ => Quiet.get.bind fun s => by
    split
    · exact .pure _
    · exact Quiet.throwCause _

theorem selectIn_holds (settles : ∀ id, J.Holds (calls.settle id)) (node : NodeId) (selector : Selector) (body : Body)
    (inside : body.kind = .entry → ∀ id, J.Holds (calls.child id selector)) : J.Holds (Navigate.selectIn calls node selector body) := by
  have nowhere (issue : Text → AddressIssue) : J.Holds (do throwCause (.address (issue (← nameOf node))) : StoreM NodeId) :=
    (Quiet.nameOf node).judged.bind fun _ => (Quiet.throwCause _).judged
  cases body with
  | scalar => exact nowhere _
  | entry => exact (entryValue_holds settles node).bind (inside rfl)
  | sequence items declared isSettled =>
    cases selector with
    | key => exact nowhere _
    | index index => exact (itemPlace_quiet node _ index).judged.bind fun i => (Quiet.current _).judged
  | mapping entries isSettled =>
    cases selector with
    | index => exact nowhere _
    | key key =>
      refine (selectEntry_quiet node key).judged.bind fun (entry,entryOnly) => ?_
      cases entryOnly with
      | true => exact .pure _
      | false => exact entryValue_holds settles entry

theorem selectChild_holds (settles : ∀ id, J.Holds (calls.settle id)) (node : NodeId) (selector : Selector)
    (inside : ∀ id, J.Holds (calls.child id selector)) : J.Holds (Navigate.selectChild calls node selector) := by
  rw [Navigate.selectChild_eq]
  exact (Quiet.getNode node).judged.bind fun n => selectIn_holds settles node selector n.body fun _ => inside

variable (sound : J.OnTree calls)
include sound

theorem settled_holds (id : NodeId) : J.Holds (Navigate.settled calls id) :=
  (Quiet.current id).judged.bind fun node => (sound.settle node).bind fun _ => (Quiet.getNode node).judged.bind fun n => by
    split
    · exact sound.settled node
    · exact .pure _

theorem child_holds (id : NodeId) (selector : Selector) : J.Holds (Navigate.child calls id selector) :=
  (settled_holds sound id).bind fun node => selectChild_holds sound.settle node selector fun id => sound.child id selector

omit sound in
theorem ascend_quiet (address : Text) (id : NodeId) : Quiet (Navigate.ascend address id) :=
  Quiet.get.bind fun s => by
    dsimp only
    split
    · exact .pure _
    · exact Quiet.throwCause _

omit sound in
theorem ascendBy_quiet (address : Text) (levels : Nat) (id : NodeId) : Quiet (Navigate.ascendBy address levels id) := by
  induction levels generalizing id with
  | zero => exact .pure _
  | succ levels ih => exact (ascend_quiet address id).bind ih

theorem fromAddress_holds (id : NodeId) (address : Text) : J.Holds (Navigate.fromAddress calls id address) :=
  (Quiet.current id).judged.bind fun start => by
    cases Address.parse address with
    | error issue => exact (Quiet.throwCause _).judged
    | ok steps =>
      refine Holds.foldlM steps (fun node step _ => ?_) start
      cases step with
      | ascend levels => exact (ascendBy_quiet address levels node).judged
      | select selector => exact sound.child node selector

omit sound in
theorem ancestor_quiet (id : NodeId) (levels : Nat) : Quiet (Navigate.ancestor id levels) :=
  (Quiet.current id).bind fun _ => Holds.checked (Holds.throw _) (ascendBy_quiet _ _ _)

omit sound in
theorem expectNode_quiet (f : Builtin) (v : Value) : Quiet (Invoke.expectNode f v) := by
  unfold Invoke.expectNode
  split
  · exact Quiet.current _
  · exact Quiet.refuse _

omit sound in
theorem parent_quiet (args : List Value) (keyword : Pairs) : Quiet (Invoke.parent args keyword) :=
  (Quiet.check _).bind fun _ => (expectNode_quiet _ _).bind fun id => (Quiet.check _).bind fun levels =>
    (ancestor_quiet id levels).bind Quiet.nodeValue

omit sound in
theorem rawValue_quiet (args : List Value) : Quiet (Invoke.rawValue args) := by
  refine Holds.checked (Quiet.refuse _) ((expectNode_quiet _ _).bind fun node => Quiet.get.bind fun s => ?_)
  split
  · exact .pure _
  · exact (Quiet.nodeValue _).bind fun _ => Quiet.refuse _

theorem childOf_holds (args : List Value) : J.Holds (Invoke.child calls args) := by
  refine Holds.checked (Quiet.refuse _).judged ((expectNode_quiet _ _).judged.bind fun id => (sound.settled id).bind fun node => ?_)
  refine Quiet.get.judged.bind fun s => ?_
  have the (selector : Selector) : J.Holds (do nodeValue (← calls.child node selector)) :=
    (sound.child node selector).bind fun _ => (Quiet.nodeValue _).judged
  have none : J.Holds (do refuse (.childOf (← nodeValue node).typeName) : StoreM Value) :=
    (Quiet.nodeValue node).judged.bind fun _ => (Quiet.refuse _).judged
  cases (s.node node).body with
  | mapping =>
    dsimp only
    split
    · exact the _
    · exact (Quiet.refuse _).judged
  | sequence => exact Holds.checked (Quiet.refuse _).judged (the _)
  | _ => exact none

omit sound in
theorem hostFunction_quiet (host : Host) (name : Text) (args : List Value) (keyword : Pairs) :
    Quiet (Invoke.hostFunction host name args keyword) := fun s => by
  obtain ⟨r,t,run,alike⟩ := Quiet.compute (host.function name ((s.callCounts.lookup name).getD 0) args keyword)
    { s with callCounts := (name,(s.callCounts.lookup name).getD 0 + 1) :: s.callCounts.filter fun p => p.1 != name }
  exact ⟨r,t,run,alike.nodes,alike.session⟩

variable (host : Host)

/-- Of a call a judgement holds if it does where the call is one of a function that needs no tree. -/
theorem function_holds (callable : Callable) (args : List Value) (keyword : Pairs)
    (alone : ∀ f, callable = .builtin f → J.Holds (Functions.call host f args keyword)) :
    J.Holds (Invoke.function host calls callable args keyword) := by
  unfold Invoke.function
  split
  · exact (parent_quiet args keyword).judged
  · exact childOf_holds sound args
  · exact (rawValue_quiet args).judged
  · exact alone _ rfl
  · exact (Quiet.check _).judged.bind fun address => (fromAddress_holds sound _ address).bind fun id => sound.resolve id
  · exact (Quiet.check _).judged.bind fun address => (fromAddress_holds sound _ address).bind fun id => (Quiet.nodeValue id).judged
  · exact (hostFunction_quiet host _ args keyword).judged

theorem object_holds (o : Object) (args : List Value) (keyword : Pairs)
    (alone : ∀ id f, o = .function id (.builtin f) → J.Holds (Functions.call host f args keyword)) :
    J.Holds (Invoke.object host calls o args keyword) := by
  cases o with
  | node id kind =>
    exact Holds.checked (Quiet.refuse _).judged ((Quiet.check _).judged.bind fun address =>
      (fromAddress_holds sound id address).bind fun id => sound.resolve id)
  | function id callable => exact function_holds sound host callable args keyword fun f same => alone id f (by rw [same])
  | type type => exact (cast_quiet type args keyword).judged
  | factory | modifier => exact (Quiet.compute _).judged
  | foreign => exact .pure _

theorem subscript_holds (o : Object) (key : Value) : J.Holds (Invoke.subscript host calls o key) := by
  have part (id : NodeId) (selector : Selector) : J.Holds (do nodeValue (← calls.child id selector)) :=
    (sound.child id selector).bind fun _ => (Quiet.nodeValue _).judged
  unfold Invoke.subscript
  split
  · exact part _ _
  · exact part _ _
  · exact (Quiet.throwCause _).judged
  · exact (Quiet.compute _).judged
  · exact .pure _

end Calls

section Sources

variable {calls : Calls} (sound : J.Sound calls) (host : Host)
include sound

theorem env_kept (context locals : Pairs) : J.Kept (Expression.env host calls context locals) :=
  ⟨sound.invoke,subscript_holds sound.toOnTree host,sound.operate⟩

omit sound in
theorem guarded_holds {α : Type} (source : Text) {action : StoreM α} (keeps : J.Holds action) :
    J.Holds (Expression.guarded source action) :=
  keeps.tryCatch fun e => by
    cases e with
    | fault id => exact .throw _
    | foreign message => exact (Quiet.refuse _).judged

theorem evaluate_holds (source : Text) (locals : Pairs) : J.Holds (Expression.evaluate host calls source locals) :=
  Quiet.getSession.judged.bind fun _ => (Quiet.check _).judged.bind fun e =>
    guarded_holds source ((env_kept sound host _ _).eval [] e)

theorem evaluateList_holds (source : Text) (locals : Pairs) : J.Holds (Expression.evaluateList host calls source locals) :=
  Quiet.getSession.judged.bind fun _ => (Quiet.check _).judged.bind fun es =>
    guarded_holds source (Holds.mapM es fun e _ => (env_kept sound host _ _).eval [] e)

theorem locals_holds (id : NodeId) : J.Holds (Expression.locals id) :=
  (sound.attached id).bind fun _ => Quiet.judged <| Quiet.get.bind fun _ => (Quiet.nodeValue _).bind fun _ =>
    (Quiet.nodeValue _).bind fun _ => (Quiet.nodeValue _).bind fun _ => (Quiet.compute _).bind fun _ => (Quiet.compute _).bind fun _ => .pure _

theorem declared_holds {α : Type} (read : Text → Value → Except ConstructionIssue α) (source : Text) (locals : Pairs) :
    J.Holds (Expression.declared host calls read source locals) :=
  (evaluateList_holds sound host source locals).bind fun _ => (Quiet.orThrow _).judged

theorem declarationOf_holds (source : DeclarationSource) (locals : Pairs) :
    J.Holds (Expression.declaration host calls source locals) := by
  have types : J.Holds (source.types.mapM fun s => Expression.types host calls s locals) := by
    cases source.types with
    | none => exact .pure _
    | some s => exact (declared_holds sound host _ s locals).map
  refine types.bind fun _ => ?_
  dsimp only
  split
  · exact (declared_holds sound host _ _ locals).bind fun _ => .pure _
  · exact (Holds.pure _).bind fun _ => .pure _

end Sources

end Judgement

/-! ## Under a discipline -/

namespace Discipline

variable {D : Discipline}

/-- A function that needs no tree only looks, if it ends at all. -/
theorem functions_still (host : Host) (f : Builtin) (args : List Value) (keyword : Pairs) :
    Still (Functions.call host f args keyword) := by
  cases ends : Functions.isEndless f args with
  | false => exact (Judgement.functions_quiet host ends keyword).still
  | true =>
    cases f with
    | range =>
      refine (Quiet.check _).still.bind fun (start,stop,step) => ?_
      dsimp only
      split
      · exact (Quiet.compute _).still
      · exact .unending
    | _ => cases ends

/-- So does an operation. -/
theorem operate_still (op : BinaryOp) (v w : Value) : Still (Eval.operate op v w) := by
  unfold Eval.operate
  split
  · split
    · exact (Quiet.compute _).still
    · exact .unending
  · exact (Quiet.compute _).still

variable {calls : Calls} (sound : D.Sound calls)
include sound

theorem settled_keeps (id : NodeId) : D.Keeps (Navigate.settled calls id) := Judgement.settled_holds sound.judged.toOnTree id

theorem child_keeps (id : NodeId) (selector : Selector) : D.Keeps (Navigate.child calls id selector) :=
  Judgement.child_holds sound.judged.toOnTree id selector

theorem fromAddress_keeps (id : NodeId) (address : Text) : D.Keeps (Navigate.fromAddress calls id address) :=
  Judgement.fromAddress_holds sound.judged.toOnTree id address

theorem object_keeps (host : Host) (o : Object) (args : List Value) (keyword : Pairs) :
    D.Keeps (Invoke.object host calls o args keyword) :=
  Judgement.object_holds sound.judged.toOnTree host o args keyword fun _ f _ => (functions_still host f args keyword).keeps

omit sound in
theorem operate_keeps (op : BinaryOp) (v w : Value) : D.Keeps (Eval.operate op v w) := (operate_still op v w).keeps

end Discipline
end ConfTree
