import ConfTree.Proofs.Renaming.Editing
import ConfTree.Proofs.Renaming.Evaluation

/-!
# Objects under other identities

Following an address, calling and indexing an object, and evaluating a source do in a renamed store what they do in the
store, if the embedding program and the work that they refer to take no notice of a renaming (`Host.Uniform`,
`Calls.Uniform`).
-/
namespace ConfTree

open StoreM

/-- What the embedding program makes of renamed values is what it makes of the values, renamed. -/
structure Host.Uniform (f : Renaming) (host : Host) : Prop where
  function : ∀ name count args keyword, Compute.Moves f (Value.renamed f) (host.function name count args keyword)
    (host.function name count (args.map (Value.renamed f)) (Pairs.renamed f keyword))
  subscript : ∀ o key, Compute.Moves f (Value.renamed f) (host.subscript o key) (host.subscript o (key.renamed f))
  transform : ∀ name v, Compute.Moves f (Value.renamed f) (host.transform name v) (host.transform name (v.renamed f))

/-- All work does in a renamed store what it does in the store. -/
structure Calls.Uniform (f : Renaming) (calls : Calls) : Prop where
  resolve : ∀ node, Moves f (Value.renamed f) (calls.resolve node) (calls.resolve node)
  settle : ∀ node, Unmoved f (calls.settle node)
  settled : ∀ node, Unmoved f (calls.settled node)
  child : ∀ node selector, Unmoved f (calls.child node selector)
  declaration : ∀ node, Moves f (Declaration.renamed f) (calls.declaration node) (calls.declaration node)
  apply : ∀ m node, Moves f id (calls.apply m node) (calls.apply (m.renamed f) node)
  invoke : ∀ o args keyword, Moves f (Value.renamed f) (calls.invoke o args keyword)
    (calls.invoke (o.renamed f) (args.map (Value.renamed f)) (Pairs.renamed f keyword))
  operate : ∀ op v w, Moves f (Value.renamed f) (calls.operate op v w) (calls.operate op (v.renamed f) (w.renamed f))

variable {f : Renaming} {v : Value} {args : List Value} {keyword : Pairs} {host : Host} {α : Type}

namespace Invoke

theorem addressArgument_renamed (name : Text) :
    addressArgument name (args.map (Value.renamed f)) = addressArgument name args := by
  rw [addressArgument,addressArgument,List.length_map,Functions.argument_renamed]
  generalize Functions.argument args 0 = v
  cases v <;> simp [Value.typeName]

theorem expectLevels_renamed (function : Builtin) : expectLevels function (v.renamed f) = expectLevels function v := by
  cases v <;> simp [expectLevels,Value.typeName]

/-- Counts a call of a function of the embedding program and gives the number of earlier ones. -/
def countCall (name : Text) : StoreM Nat := do
  let s ← get
  let count := (s.callCounts.lookup name).getD 0
  set { s with callCounts := (name,count + 1) :: s.callCounts.filter fun p => p.1 != name }
  return count

theorem hostFunction_eq (name : Text) :
    hostFunction host name args keyword = (do compute (host.function name (← countCall name) args keyword)) := rfl

end Invoke

namespace Expression

mutual

theorem flat_renamed (v : Value) : flat (v.renamed f) = (flat v).map (Value.renamed f) := by
  cases v with
  | list id items =>
    simp only [Value.renamed,Value.renameAll_eq,flat]
    exact flatAll_renamed items
  | _ => simp [flat]
termination_by structural v

theorem flatAll_renamed (vs : List Value) :
    flatAll (vs.map (Value.renamed f)) = (flatAll vs).map (Value.renamed f) := by
  cases vs with
  | nil => rfl
  | cons v rest => rw [List.map_cons,flatAll,flatAll,flat_renamed v,flatAll_renamed rest,List.map_append]
termination_by structural vs

end

end Expression

/-! ## Work that refers to no other -/

namespace Moves

theorem itemPlace (sequence : NodeId) (length : Nat) (index : Number) : Unmoved f (Navigate.itemPlace sequence length index) := by
  unfold Navigate.itemPlace
  cases index.int? with
  | none => exact (nameOf sequence).bind fun name => throwCause (.address _)
  | some i => exact ite ((nameOf sequence).bind fun name => stopped (.address _)) (pure _)

theorem selectEntry (mapping : NodeId) (selector : Text) : Unmoved f (Navigate.selectEntry mapping selector) := by
  refine (nameOf mapping).bind fun name => reading fun s m => ?_
  rw [Store.findEntry_renamed]
  dsimp only [id]
  generalize s.findEntry mapping _ = found
  cases found with
  | some entry => exact pure (entry,_)
  | none => exact throwCause (.address _)

theorem ascend (address : Text) (node : NodeId) : Unmoved f (Navigate.ascend address node) := by
  refine reading fun s m => ?_
  simp only [Store.above?_renamed,Store.kind_renamed]
  cases s.above? node with
  | none => exact throwCause (.address _)
  | some p =>
    dsimp only
    by_cases entry : s.kind p = .entry
    · rw [if_pos entry]
      cases s.above? p with
      | none => exact throwCause (.address _)
      | some container => exact pure container
    · rw [if_neg entry]
      exact pure p

theorem ascendBy (address : Text) (levels : Nat) (node : NodeId) : Unmoved f (Navigate.ascendBy address levels node) := by
  induction levels generalizing node with
  | zero => exact pure node
  | succ levels ih => exact (ascend address node).bind ih

theorem ancestor (node : NodeId) (levels : Nat) : Unmoved f (Navigate.ancestor node levels) :=
  (current node).bind fun start => ite (throw _) (ascendBy _ levels start)

theorem expectNode (function : Builtin) (v : Value) : Moves f id (Invoke.expectNode function v) (Invoke.expectNode function (v.renamed f)) := by
  cases v with
  | object o =>
    cases o with
    | node node kind => exact .current node
    | _ => exact .refused (EvalIssue.expectsNode function.name) _
  | _ => exact .refused (EvalIssue.expectsNode function.name) _

theorem parent : Moves f (Value.renamed f) (Invoke.parent args keyword)
    (Invoke.parent (args.map (Value.renamed f)) (Pairs.renamed f keyword)) := by
  have levels := Functions.second_renamed (f := f) args keyword "levels" (.ofNat 1) rfl
  refine (check (g := id) (by rw [Factory.arity_renamed,id_map])).bind fun _ => ?_
  rw [Functions.argument_renamed,levels]
  refine (expectNode .parent _).bind fun node => (check (g := id) (by rw [Invoke.expectLevels_renamed,id_map])).bind fun levels => ?_
  exact (ancestor node levels).bind .nodeValue

theorem rawValue : Moves f (Value.renamed f) (Invoke.rawValue args) (Invoke.rawValue (args.map (Value.renamed f))) := by
  unfold Invoke.rawValue
  rw [List.length_map,Functions.argument_renamed]
  refine .ite (.stopped _) ((expectNode .rawValue _).bind fun node => .reading fun s m => ?_)
  rw [Store.definedValue?_renamed]
  dsimp only [id]
  cases s.definedValue? node with
  | some literal => exact .const (by cases literal <;> rfl)
  | none => exact (nodeValue node).bind fun v => .refused EvalIssue.rawValueOf v

theorem hostFunction (given : host.Uniform f) (name : Text) : Moves f (Value.renamed f) (Invoke.hostFunction host name args keyword)
    (Invoke.hostFunction host name (args.map (Value.renamed f)) (Pairs.renamed f keyword)) := by
  have counted : Unmoved f (Invoke.countCall name) := .of_step (v := fun s => (s.callCounts.lookup name).getD 0)
    (fun _ => rfl) (fun _ => rfl) fun _ _ => rfl
  rw [Invoke.hostFunction_eq,Invoke.hostFunction_eq]
  exact counted.bind fun count => .compute (given.function name count args keyword)

theorem guardedSource {β : Type} {g : α → β} (source : Text) {a : StoreM α} {b : StoreM β} (moves : Moves f g a b) :
    Moves f g (Expression.guarded source a) (Expression.guarded source b) := by
  refine moves.tryCatch fun e => ?_
  cases e with
  | fault fault => exact .throw _
  | foreign message => exact .refuse _

theorem locals (node : NodeId) : Moves f (Pairs.renamed f) (Expression.locals node) (Expression.locals node) := by
  have fresh : Moves f f.map (StoreM.compute Compute.fresh) (StoreM.compute Compute.fresh) := .compute (.make fun _ => rfl)
  refine (requireSession node).bind fun _ => .reading fun s m => ?_
  rw [Store.scope_renamed,Store.unitRoot_renamed]
  exact (nodeValue s.session.root).bind fun root => (nodeValue node).bind fun self =>
    (nodeValue (s.unitRoot node)).bind fun unit => fresh.bind fun ref => fresh.bind fun node => .const rfl

end Moves

/-! ## Work that refers to other work -/

namespace Calls.Uniform

variable {calls : Calls} (uniform : calls.Uniform f)
include uniform

theorem settled_step (node : NodeId) : Unmoved f (Navigate.settled calls node) := by
  refine (Moves.current node).bind fun here => (uniform.settle here).bind fun _ => (Moves.getNode here).bind fun n => ?_
  exact .ite (uniform.settled here) (.pure here)

theorem entryValue (entry : NodeId) : Unmoved f (Navigate.entryValue calls entry) := by
  refine (uniform.settle entry).bind fun _ => .reading fun s m => ?_
  rw [Store.entryValue_renamed]
  exact .pure _

theorem selectChild (node : NodeId) (selector : Selector) : Unmoved f (Navigate.selectChild calls node selector) := by
  refine (Moves.getNode node).bind fun n => ?_
  simp only [Node.renamed]
  cases n.body with
  | scalar raw override => exact (Moves.nameOf node).bind fun name => .throwCause (.address _)
  | sequence items declared isSettled =>
    cases selector with
    | key key => exact (Moves.nameOf node).bind fun name => .throwCause (.address _)
    | index index => exact (Moves.itemPlace node items.length index).bind fun place => .current _
  | mapping entries isSettled =>
    cases selector with
    | index index => exact (Moves.nameOf node).bind fun name => .throwCause (.address _)
    | key key => exact (Moves.selectEntry node key).bind fun p => .ite (.pure p.1) (uniform.entryValue p.1)
  | entry head slot declared renamed modification evaluated =>
    exact (uniform.entryValue node).bind fun value => uniform.child value selector

theorem child_step (node : NodeId) (selector : Selector) : Unmoved f (Navigate.child calls node selector) :=
  (uniform.settled_step node).bind fun here => uniform.selectChild here selector

theorem fromAddress (node : NodeId) (address : Text) : Unmoved f (Navigate.fromAddress calls node address) := by
  refine (Moves.current node).bind fun start => ?_
  cases Address.parse address with
  | error issue => exact .throwCause (.address issue)
  | ok steps =>
    refine .foldlM steps (fun here step => ?_) start
    cases step with
    | ascend levels => exact .ascendBy address levels here
    | select selector => exact uniform.child here selector

/-- The value of what an address leads to. -/
theorem valueAt (node : NodeId) (address : Text) :
    Moves f (Value.renamed f) (do calls.resolve (← Navigate.fromAddress calls node address))
      (do calls.resolve (← Navigate.fromAddress calls node address)) :=
  (uniform.fromAddress node address).bind uniform.resolve

theorem childOf : Moves f (Value.renamed f) (Invoke.child calls args) (Invoke.child calls (args.map (Value.renamed f))) := by
  have selected (node : NodeId) (selector : Selector) : Moves f (Value.renamed f) (do nodeValue (← calls.child node selector))
      (do nodeValue (← calls.child node selector)) := (uniform.child node selector).bind .nodeValue
  unfold Invoke.child
  rw [List.length_map,Functions.argument_renamed]
  refine .ite (.stopped _) ((Moves.expectNode .child _).bind fun node => (uniform.settled node).bind fun here => .reading fun s m => ?_)
  rw [Store.keys_renamed,Store.body_renamed]
  dsimp only [id]
  cases (s.node here).body with
  | mapping entries isSettled =>
    dsimp only [Body.renamed]
    generalize s.keys here = keys
    match keys with
    | [key] => exact selected here _
    | [] | _ :: _ :: _ => exact .refuse _
  | sequence items declared isSettled => exact .ite (.stopped _) (selected here _)
  | _ => exact (Moves.nodeValue here).bind fun v => .refused EvalIssue.childOf v

theorem function (given : host.Uniform f) (callable : Callable) :
    Moves f (Value.renamed f) (Invoke.function host calls callable args keyword)
      (Invoke.function host calls callable (args.map (Value.renamed f)) (Pairs.renamed f keyword)) := by
  have address (name : Text) : Unmoved f (check (Invoke.addressArgument name args)) := .check (id_map _).symm
  cases callable with
  | builtin function =>
    have plain : Moves f (Value.renamed f) (Functions.call host function args keyword)
      (Functions.call host function (args.map (Value.renamed f)) (Pairs.renamed f keyword)) := Functions.call_moves host function
    cases function with
    | parent => exact .parent
    | child => exact uniform.childOf
    | rawValue => exact .rawValue
    | _ => exact plain
  | ref scope =>
    rw [Invoke.function,Invoke.function,Invoke.addressArgument_renamed]
    exact (address _).bind fun address => uniform.valueAt scope address
  | node scope =>
    rw [Invoke.function,Invoke.function,Invoke.addressArgument_renamed]
    exact (address _).bind fun address => (uniform.fromAddress scope address).bind .nodeValue
  | host name => exact .hostFunction given name

theorem object (given : host.Uniform f) (o : Object) : Moves f (Value.renamed f) (Invoke.object host calls o args keyword)
    (Invoke.object host calls (o.renamed f) (args.map (Value.renamed f)) (Pairs.renamed f keyword)) := by
  cases o with
  | node node kind =>
    have address : Unmoved f (check (Invoke.addressArgument "node" args)) := .check (id_map _).symm
    show Moves f _ (Invoke.node calls node args keyword) (Invoke.node calls node _ _)
    rw [Invoke.node,Invoke.node,Invoke.addressArgument_renamed,Pairs.isEmpty_mapValues]
    exact .ite (.stopped _) (address.bind fun address => uniform.valueAt node address)
  | function id callable => exact uniform.function given callable
  | type type => exact Cast.invoke_moves type
  | factory factory => exact .compute ((Factory.make_moves factory).bind Factory.asValue_moves fun _ _ => ⟨_,rfl⟩)
  | modifier id m => exact .compute (.after Factory.makeLoad_renamed Factory.asValue_moves)
  | foreign id o => exact .const rfl

theorem subscript (given : host.Uniform f) (o : Object) (key : Value) : Moves f (Value.renamed f)
    (Invoke.subscript host calls o key) (Invoke.subscript host calls (o.renamed f) (key.renamed f)) := by
  cases o with
  | node node kind =>
    cases key with
    | text name => exact (uniform.child node (.key name)).bind .nodeValue
    | number index => exact (uniform.child node (.index index)).bind .nodeValue
    | object o =>
      simp only [Value.renamed,Object.renamed,Invoke.subscript,Value.typeName,Object.typeName_renamed]
      exact .throwCause _
    | _ => exact .throwCause _
  | foreign id o => cases key <;> exact .compute (given.subscript o _)
  | _ => cases key <;> exact .const rfl

theorem env (given : host.Uniform f) (context locals : Pairs) : (Expression.env host calls context locals).Moves f
    (Expression.env host calls (Pairs.renamed f context) (Pairs.renamed f locals)) :=
  ⟨rfl,rfl,uniform.invoke,uniform.subscript given,uniform.operate⟩

theorem evaluate (given : host.Uniform f) (source : Text) (locals : Pairs) :
    Moves f (Value.renamed f) (Expression.evaluate host calls source locals)
      (Expression.evaluate host calls source (Pairs.renamed f locals)) := by
  refine Moves.getSession.bind fun session => (Moves.check (g := id) (id_map _).symm).bind fun e => ?_
  exact .guardedSource source ((uniform.env given session.context locals).eval [] e)

theorem evaluateList (given : host.Uniform f) (source : Text) (locals : Pairs) :
    Moves f (List.map (Value.renamed f)) (Expression.evaluateList host calls source locals)
      (Expression.evaluateList host calls source (Pairs.renamed f locals)) := by
  refine Moves.getSession.bind fun session => (Moves.check (g := id) (id_map _).symm).bind fun es => ?_
  exact .guardedSource source (.mapM es fun e => (uniform.env given session.context locals).eval [] e)

/-! ## Declarations -/

theorem declared {g : α → α} {read : Text → Value → Except ConstructionIssue α} (given : host.Uniform f)
    (reads : ∀ source v, read source (v.renamed f) = g <$> read source v) (source : Text) (locals : Pairs) :
    Moves f (List.map g) (Expression.declared host calls read source locals)
      (Expression.declared host calls read source (Pairs.renamed f locals)) := by
  have listed (vs : List Value) :
      ((vs.map (Value.renamed f)).mapM fun v => (read source v).mapError fun issue => Cause.construction issue none) =
        (List.map g <$> vs.mapM fun v => (read source v).mapError fun issue => Cause.construction issue none).mapError (Cause.renamed f) := by
    induction vs with
    | nil => rfl
    | cons v rest ih =>
      simp only [List.map_cons,List.mapM_cons,ih,reads]
      cases read source v with
      | error issue => rfl
      | ok a =>
        generalize (rest.mapM fun v => (read source v).mapError fun issue => Cause.construction issue none) = others
        cases others <;> rfl
  refine (uniform.evaluateList given source locals).bind fun values => .orThrow ?_
  rw [Expression.flatAll_renamed]
  exact listed _

theorem types (given : host.Uniform f) (source : Text) (locals : Pairs) :
    Moves f id (Expression.types host calls source locals) (Expression.types host calls source (Pairs.renamed f locals)) := by
  have reads (source : Text) (v : Value) : Expression.asType source (v.renamed f) = id <$> Expression.asType source v := by
    rw [id_map]
    cases v with
    | object o => cases o <;> rfl
    | _ => rfl
  exact List.map_id_fun ▸ uniform.declared given reads source locals

theorem modifiers (given : host.Uniform f) (source : Text) (locals : Pairs) :
    Moves f (List.map (ModifierObject.renamed f)) (Expression.modifiers host calls source locals)
      (Expression.modifiers host calls source (Pairs.renamed f locals)) := by
  have reads (source : Text) (v : Value) :
      Expression.asModifier source (v.renamed f) = ModifierObject.renamed f <$> Expression.asModifier source v := by
    cases v with
    | object o => cases o <;> rfl
    | _ => rfl
  exact uniform.declared given reads source locals

theorem declarationOf (given : host.Uniform f) (source : DeclarationSource) (locals : Pairs) :
    Moves f (Declaration.renamed f) (Expression.declaration host calls source locals)
      (Expression.declaration host calls source (Pairs.renamed f locals)) := by
  have listed : Moves f id (source.types.mapM fun s => Expression.types host calls s locals)
      (source.types.mapM fun s => Expression.types host calls s (Pairs.renamed f locals)) := by
    cases source.types with
    | none =>
      rw [Option.mapM_none,Option.mapM_none]
      exact .pure none
    | some s => exact (uniform.types given s locals).map fun _ => rfl
  refine listed.bind fun types => ?_
  dsimp only
  cases source.modifiers with
  | none => exact .const rfl
  | some s => exact (uniform.modifiers given s locals).bind fun modifiers => .const rfl

end Calls.Uniform
end ConfTree
