import ConfTree.Proofs.Renaming.Actions
import ConfTree.Tree.Expression

/-!
# Evaluation under other identities

An expression has in a renamed store, with renamed names, the value that it has, renamed, if calling and indexing objects
and operations are so (`Env.Moves.eval`).
-/
namespace ConfTree

open StoreM

variable {f : Renaming} {v w : Value} {args : List Value} {keyword : Pairs}

/-! ## Functions -/

namespace Functions

theorem join_moves : Moves f (Value.renamed f) (join args keyword) (join (args.map (Value.renamed f)) (keyword.renamed f)) := by
  have separator := second_renamed (f := f) args keyword "separator" (.text .empty) rfl
  refine (Moves.check (g := id) (by rw [arity_renamed,id_map])).bind fun _ => ?_
  rw [separator]
  generalize second args keyword "separator" (.text .empty) = v
  cases v with
  | text t =>
    refine (Moves.check (by rw [argument_renamed,Sequence.iterate_renamed])).bind fun parts => ?_
    rw [List.mapM_map]
    simp only [Function.comp_def,textOf_renamed]
    exact (Moves.mapM parts fun v => .textOf v).bind fun texts => .const (by simp)
  | _ => exact .refused EvalIssue.separatorType _

theorem onText_moves (function : Builtin) (operation : Text → Text) :
    Moves f (Value.renamed f) (onText function operation args) (onText function operation (args.map (Value.renamed f))) := by
  refine (Moves.check (g := id) (by rw [arity_renamed,id_map])).bind fun _ => ?_
  rw [argument_renamed,textOf_renamed]
  exact (Moves.textOf _).bind fun t => .const rfl

/-- What a function of the registry that needs no tree makes of renamed arguments. -/
theorem call_moves (host : Host) (function : Builtin) : Moves f (Value.renamed f) (call host function args keyword)
    (call host function (args.map (Value.renamed f)) (keyword.renamed f)) := by
  have number (r : Except EvalIssue Number) : (Value.number <$> r) = Value.renamed f <$> (Value.number <$> r) := by
    rw [Functor.map_map]
    rfl
  have listed (items : List Value) (items' : List Value) (same : items' = items.map (Value.renamed f)) :
      Moves f (Value.renamed f) (StoreM.compute (Compute.list items)) (StoreM.compute (Compute.list items')) :=
    same ▸ .compute (.list items)
  have tabled (rows rows' : List (List Value)) (same : rows' = rows.map (List.map (Value.renamed f))) :
      Moves f (Value.renamed f) (StoreM.compute (Functions.rows rows)) (StoreM.compute (Functions.rows rows')) :=
    same ▸ .compute (rows_moves rows)
  cases function with
  | len => exact .check len_renamed
  | range =>
    refine (Moves.check (g := id) (by rw [rangeBounds_renamed,id_map])).bind fun (start,stop,step) => ?_
    dsimp only [id]
    cases Sequence.progression start stop step with
    | none => exact .unending
    | some terms => exact listed _ _ (by simp)
  | min => exact .check (extreme_renamed _ _)
  | max => exact .check (extreme_renamed _ _)
  | sum => exact .check (by rw [sum_renamed,← number])
  | abs => exact .check (onNumber_renamed _ _)
  | round => exact .check (by rw [round_renamed,← number])
  | floor => exact .check (onNumber_renamed _ _)
  | ceil => exact .check (onNumber_renamed _ _)
  | keys => exact (Moves.check (onlyPairs_renamed _)).bind fun pairs => listed _ _ (by simp [Pairs.mapValues])
  | values => exact (Moves.check (onlyPairs_renamed _)).bind fun pairs => listed _ _ (by simp [Pairs.mapValues])
  | items => exact (Moves.check (onlyPairs_renamed _)).bind fun pairs => tabled _ _ (by simp [Pairs.mapValues])
  | zip => exact (Moves.check Sequence.iterateAll_renamed).bind fun lists => tabled _ _ (zipped_renamed lists)
  | enumerate => exact (Moves.check enumerate_renamed).bind fun rows => tabled _ _ rfl
  | sorted => exact (Moves.check sorted_renamed).bind fun items => listed _ _ rfl
  | reversed => exact (Moves.check (onlyParts_renamed _)).bind fun items => listed _ _ (by simp)
  | any => exact (Moves.check (onlyParts_renamed _)).bind fun items => .const (by simp [Function.comp_def])
  | all => exact (Moves.check (onlyParts_renamed _)).bind fun items => .const (by simp [Function.comp_def])
  | join => exact join_moves
  | upper => exact onText_moves _ _
  | lower => exact onText_moves _ _
  | env => exact .compute (env_moves host)
  | cwd => exact .check (cwd_renamed host)
  | _ => exact .const rfl

end Functions
theorem Cast.invoke_moves (type : TypeName) : Moves f (Value.renamed f) (invoke type args keyword)
    (invoke type (args.map (Value.renamed f)) (keyword.renamed f)) := by
  have head : (args.map (Value.renamed f)).head?.getD .undefined = (args.head?.getD .undefined).renamed f := by
    cases args <;> rfl
  have text (v : Value) : Moves f (Value.renamed f) (do return .text (← toText v)) (do return .text (← toText (v.renamed f))) := by
    have same : toText (v.renamed f) = toText v := by
      cases v with
      | undefined => rfl
      | _ => exact textOf_renamed _
    have read : Unmoved f (toText v) := by
      cases v with
      | undefined => exact .pure _
      | _ => exact .textOf _
    rw [same]
    exact read.bind fun t => .const rfl
  unfold invoke
  rw [List.length_map,head]
  cases type with
  | str => exact .ite (.stopped _) (text _)
  | _ => exact .ite (.stopped _) (.compute (convert_moves _))

/-! ## Expressions -/

/-- The second environment gives what the first one gives, renamed. -/
structure Env.Moves (f : Renaming) (env env' : Env) : Prop where
  locals : env'.locals = env.locals.renamed f
  context : env'.context = env.context.renamed f
  invoke : ∀ o args keyword, ConfTree.Moves f (Value.renamed f) (env.invoke o args keyword)
    (env'.invoke (o.renamed f) (args.map (Value.renamed f)) (keyword.renamed f))
  subscript : ∀ o key, ConfTree.Moves f (Value.renamed f) (env.subscript o key) (env'.subscript (o.renamed f) (key.renamed f))
  operate : ∀ op v w, ConfTree.Moves f (Value.renamed f) (env.operate op v w) (env'.operate op (v.renamed f) (w.renamed f))

namespace Eval

theorem operate_moves (op : BinaryOp) : Moves f (Value.renamed f) (operate op v w) (operate op (v.renamed f) (w.renamed f)) := by
  unfold operate
  rw [Operators.repetition?_renamed]
  cases Operators.repetition? op v w with
  | none => exact .compute (Operators.binary_moves op)
  | some given =>
    obtain ⟨items,times⟩ := given
    simp only [Option.map_some,Operators.repeatItems_renamed]
    cases Operators.repeatItems items times with
    | none => exact .unending
    | some repeated => exact .compute (.list repeated)

theorem mappingKey_renamed : mappingKey (v.renamed f) = mappingKey v := by
  cases v <;> simp [mappingKey,Value.typeName]

theorem spreadPairs_renamed : spreadPairs (v.renamed f) = Pairs.renamed f <$> spreadPairs v := by
  cases v <;> simp [spreadPairs,Value.typeName,Functor.map,Except.map]

theorem bind_renamed (targets : List Text) : bind targets (v.renamed f) = Pairs.renamed f <$> bind targets v := by
  have unpacked (values : List Value) : (targets.zip (values.map (Value.renamed f))).reverse =
      Pairs.renamed f (targets.zip values).reverse := by
    rw [List.zip_map_right,← List.map_reverse]
    rfl
  match targets with
  | [target] => rfl
  | [] | _ :: _ :: _ =>
    cases v with
    | list id values =>
      simp only [Value.renamed,Value.renameAll_eq,bind,List.length_map,unpacked]
      split <;> rfl
    | object o =>
      simp only [Value.renamed,bind,Value.typeName,Object.typeName_renamed]
      rfl
    | _ => rfl

theorem calleeName_renamed (callee : Expr) : calleeName callee (v.renamed f) = calleeName callee v := by
  cases callee <;> simp [calleeName]

/-- Arguments with other identities. -/
def Arguments.renamed (f : Renaming) (args : Arguments) : Arguments := ⟨args.positional.map (Value.renamed f),args.keyword.renamed f⟩

theorem addKeyword_renamed (callee name : Text) :
    addKeyword callee (keyword.renamed f) name (v.renamed f) = Pairs.renamed f <$> addKeyword callee keyword name v := by
  rw [addKeyword,addKeyword,Pairs.contains_mapValues]
  split
  · rfl
  · exact congrArg Except.ok Pairs.insert_mapValues

theorem addKeywords_renamed (callee : Text) (pairs keyword : Pairs) :
    (Pairs.renamed f pairs).foldlM (fun keyword p => addKeyword callee keyword p.1 p.2) (Pairs.renamed f keyword) =
      Pairs.renamed f <$> List.foldlM (fun keyword p => addKeyword callee keyword p.1 p.2) keyword pairs := by
  induction pairs generalizing keyword with
  | nil => rfl
  | cons p rest ih =>
    show (addKeyword callee (keyword.renamed f) p.1 (p.2.renamed f) >>= fun keyword =>
      (Pairs.renamed f rest).foldlM (fun keyword p => addKeyword callee keyword p.1 p.2) keyword) = _
    rw [addKeyword_renamed,bind_map_left,List.foldlM_cons,map_bind]
    exact bind_congr ih

theorem addSpread_renamed (callee : Text) (before : Arguments) :
    addSpread callee (before.renamed f) (v.renamed f) = Arguments.renamed f <$> addSpread callee before v := by
  have iterated := Sequence.iterate_renamed (f := f) (v := v)
  have listed : (do return ⟨before.positional.map (Value.renamed f) ++ (← Sequence.iterate (v.renamed f)),before.keyword.renamed f⟩ :
        Except EvalIssue Arguments) =
      Arguments.renamed f <$> do return ⟨before.positional ++ (← Sequence.iterate v),before.keyword⟩ := by
    simp only [iterated,bind_map_left,map_bind,map_pure,Arguments.renamed,List.map_append]
  cases v with
  | mapping id pairs =>
    simp only [Value.renamed,Value.renamePairs_eq,addSpread,Arguments.renamed,addKeywords_renamed,bind_map_left,map_bind,map_pure]
  | _ => exact listed

end Eval

namespace Env.Moves

variable {env env' : Env}

theorem lookup (moves : env.Moves f env') (frame : Frame) (name : Text) :
    Eval.lookup env' (Pairs.renamed f frame) name = Value.renamed f <$> Eval.lookup env frame name := by
  simp only [Eval.lookup,moves.locals,moves.context,Pairs.renamed,Pairs.lookup_mapValues]
  cases List.lookup name frame with
  | some v => rfl
  | none =>
    cases List.lookup name env.locals with
    | some v => rfl
    | none => cases List.lookup name env.context <;> rfl

theorem index (moves : env.Moves f env') (object key : Value) : ConfTree.Moves f (Value.renamed f) (Eval.index env object key)
    (Eval.index env' (object.renamed f) (key.renamed f)) := by
  unfold Eval.index
  rw [Sequence.index?_renamed]
  cases Sequence.index? object key with
  | some found =>
    cases found with
    | ok v => exact .pure v
    | error e => exact .throwFailure e
  | none =>
    cases object with
    | object o =>
      simp only [Value.renamed,Option.map_none,Object.isSubscriptable_renamed]
      exact .ite (moves.subscript o key) (.refused EvalIssue.notSubscriptable (.object o))
    | _ => exact .refused EvalIssue.notSubscriptable _

theorem call (moves : env.Moves f env') (name : Text) (callee : Value) (args : Eval.Arguments) :
    ConfTree.Moves f (Value.renamed f) (Eval.call env name callee args) (Eval.call env' name (callee.renamed f) (args.renamed f)) := by
  cases callee with
  | object o =>
    simp only [Value.renamed,Eval.call,Object.isInvocable_renamed,Value.typeName,Object.typeName_renamed]
    refine .ite (.stopped _) ((moves.invoke o args.positional args.keyword).tryCatch fun e => ?_)
    cases e with
    | fault id => exact .throw _
    | foreign message => exact .refuse _
  | _ => exact .refused (EvalIssue.notCallable name) _

mutual

/-- What an expression comes to with renamed names in a renamed store. -/
theorem eval (moves : env.Moves f env') (frame : Frame) (e : Expr) :
    ConfTree.Moves f (Value.renamed f) (Eval.eval env frame e) (Eval.eval env' (Pairs.renamed f frame) e) := by
  cases e with
  | literal l => exact .const (by cases l <;> rfl)
  | name name => exact .check (moves.lookup frame name)
  | list items => exact (evalItems moves frame items).bind fun vs => .compute (.list vs)
  | set items => exact (evalItems moves frame items).bind fun vs => .compute (.set vs)
  | mapping entries => exact (evalEntries moves frame [] entries).bind fun pairs => .compute (.mapping pairs)
  | comprehension kind element clauses =>
    have emitted : ConfTree.Moves f (Pairs.renamed f)
        (Eval.evalClauses env frame clauses fun inner => do return (.empty,← Eval.eval env inner element))
        (Eval.evalClauses env' (Pairs.renamed f frame) clauses fun inner => do return (.empty,← Eval.eval env' inner element)) :=
      evalClauses moves frame clauses fun inner => (eval moves inner element).bind fun v => .const rfl
    refine emitted.bind fun emitted => ?_
    have items : (Pairs.renamed f emitted).map Prod.snd = (emitted.map Prod.snd).map (Value.renamed f) := by
      simp [Pairs.mapValues]
    rw [items]
    cases kind with
    | list => exact .compute (.list _)
    | set => exact .compute (.set _)
  | mappingComprehension key value clauses =>
    have emitted : ConfTree.Moves f (Pairs.renamed f)
        (Eval.evalClauses env frame clauses fun inner => do
          let name ← check (Eval.mappingKey (← Eval.eval env inner key))
          return (name,← Eval.eval env inner value))
        (Eval.evalClauses env' (Pairs.renamed f frame) clauses fun inner => do
          let name ← check (Eval.mappingKey (← Eval.eval env' inner key))
          return (name,← Eval.eval env' inner value)) := by
      refine evalClauses moves frame clauses fun inner => (eval moves inner key).bind fun k => ?_
      rw [Eval.mappingKey_renamed]
      exact (ConfTree.Moves.check (g := id) (id_map _).symm).bind fun name => (eval moves inner value).bind fun v => .const rfl
    refine emitted.bind fun emitted => ?_
    rw [Pairs.ofList_mapValues]
    exact .compute (.mapping _)
  | unary op argument => exact (eval moves frame argument).bind fun v => .check (Operators.unary_renamed op)
  | binary op left right =>
    exact (eval moves frame left).bind fun l => (eval moves frame right).bind (moves.operate op l)
  | logical op left right =>
    refine (eval moves frame left).bind fun l => ?_
    rw [Value.isTruthy_renamed]
    exact .ite (.pure l) (eval moves frame right)
  | compare first rest => exact (eval moves frame first).bind fun l => evalChain moves frame l rest
  | conditional test consequent alternate =>
    refine (eval moves frame test).bind fun v => ?_
    rw [Value.isTruthy_renamed]
    exact .ite (eval moves frame consequent) (eval moves frame alternate)
  | call callee args =>
    refine (eval moves frame callee).bind fun target => ?_
    rw [Eval.calleeName_renamed]
    exact (evalArguments moves frame _ ⟨[],[]⟩ args).bind fun args => moves.call _ target args
  | index object key => exact (eval moves frame object).bind fun o => (eval moves frame key).bind fun k => moves.index o k
  | slice object start stop step =>
    exact (eval moves frame object).bind fun o => (evalBound moves frame start).bind fun first =>
      (evalBound moves frame stop).bind fun last => (evalBound moves frame step).bind fun stride =>
        .compute (Sequence.slice_moves first last stride)

theorem evalBound (moves : env.Moves f env') (frame : Frame) (e : Option Expr) :
    ConfTree.Moves f (Value.renamed f) (Eval.evalBound env frame e) (Eval.evalBound env' (Pairs.renamed f frame) e) := by
  cases e with
  | none => exact .const rfl
  | some e => exact eval moves frame e

theorem evalChain (moves : env.Moves f env') (frame : Frame) (left : Value) (links : List (CompareOp × Expr)) :
    ConfTree.Moves f (Value.renamed f) (Eval.evalChain env frame left links)
      (Eval.evalChain env' (Pairs.renamed f frame) (left.renamed f) links) := by
  cases links with
  | nil => exact .const rfl
  | cons link rest =>
    obtain ⟨op,operand⟩ := link
    refine (eval moves frame operand).bind fun right => ?_
    rw [Operators.compare_renamed]
    exact (ConfTree.Moves.check (g := id) (id_map _).symm).bind fun holds => .ite (evalChain moves frame right rest) (.const rfl)

theorem evalItems (moves : env.Moves f env') (frame : Frame) (items : List Item) :
    ConfTree.Moves f (List.map (Value.renamed f)) (Eval.evalItems env frame items)
      (Eval.evalItems env' (Pairs.renamed f frame) items) := by
  cases items with
  | nil => exact .const rfl
  | cons item rest =>
    cases item with
    | one e => exact (eval moves frame e).bind fun v => (evalItems moves frame rest).bind fun vs => .const rfl
    | spread e =>
      refine (eval moves frame e).bind fun v => (ConfTree.Moves.check Sequence.iterate_renamed).bind fun vs => ?_
      exact (evalItems moves frame rest).bind fun others => .const List.map_append

theorem evalEntries (moves : env.Moves f env') (frame : Frame) (before : Pairs) (entries : List Entry) :
    ConfTree.Moves f (Pairs.renamed f) (Eval.evalEntries env frame before entries)
      (Eval.evalEntries env' (Pairs.renamed f frame) (Pairs.renamed f before) entries) := by
  cases entries with
  | nil => exact .pure before
  | cons entry rest =>
    cases entry with
    | spread e =>
      refine (eval moves frame e).bind fun v => (ConfTree.Moves.check Eval.spreadPairs_renamed).bind fun pairs => ?_
      rw [Pairs.insertAll_mapValues]
      exact evalEntries moves frame _ rest
    | pair key value =>
      refine (eval moves frame key).bind fun k => ?_
      rw [Eval.mappingKey_renamed]
      refine (ConfTree.Moves.check (g := id) (id_map _).symm).bind fun name => (eval moves frame value).bind fun v => ?_
      rw [id,Pairs.insert_mapValues]
      exact evalEntries moves frame _ rest

theorem evalClauses (moves : env.Moves f env') (frame : Frame) (clauses : List Clause) {emit emit' : Frame → StoreM (Text × Value)}
    (emits : ∀ inner, ConfTree.Moves f (Prod.map id (Value.renamed f)) (emit inner) (emit' (Pairs.renamed f inner))) :
    ConfTree.Moves f (Pairs.renamed f) (Eval.evalClauses env frame clauses emit)
      (Eval.evalClauses env' (Pairs.renamed f frame) clauses emit') := by
  cases clauses with
  | nil => exact (emits frame).bind fun emitted => .const rfl
  | cons clause rest =>
    cases clause with
    | when test =>
      refine (eval moves frame test).bind fun v => ?_
      rw [Value.isTruthy_renamed]
      exact .ite (evalClauses moves frame rest emits) (.const rfl)
    | each targets iterable =>
      refine (eval moves frame iterable).bind fun v => (ConfTree.Moves.check Sequence.iterate_renamed).bind fun items => ?_
      rw [List.mapM_map]
      refine (ConfTree.Moves.mapM (g := Pairs.renamed f) items fun item => ?_).bind fun found => .const ?_
      · refine (ConfTree.Moves.check (Eval.bind_renamed targets)).bind fun vars => ?_
        have inner : Pairs.renamed f vars ++ Pairs.renamed f frame = Pairs.renamed f (vars ++ frame) := List.map_append.symm
        rw [inner]
        exact evalClauses moves (vars ++ frame) rest emits
      · exact List.map_flatten

theorem evalArguments (moves : env.Moves f env') (frame : Frame) (callee : Text) (before : Eval.Arguments) (args : List Argument) :
    ConfTree.Moves f (Eval.Arguments.renamed f) (Eval.evalArguments env frame callee before args)
      (Eval.evalArguments env' (Pairs.renamed f frame) callee (before.renamed f) args) := by
  cases args with
  | nil => exact .pure before
  | cons argument rest =>
    cases argument with
    | positional e =>
      refine (eval moves frame e).bind fun v => ?_
      have added : (⟨(before.renamed f).positional ++ [v.renamed f],(before.renamed f).keyword⟩ : Eval.Arguments) =
          Eval.Arguments.renamed f ⟨before.positional ++ [v],before.keyword⟩ := by
        simp [Eval.Arguments.renamed]
      rw [added]
      exact evalArguments moves frame callee _ rest
    | keyword name e =>
      refine (eval moves frame e).bind fun v => ?_
      refine (ConfTree.Moves.check (Eval.addKeyword_renamed callee name)).bind fun keyword => ?_
      exact evalArguments moves frame callee ⟨before.positional,keyword⟩ rest
    | spread e =>
      refine (eval moves frame e).bind fun v => ?_
      refine (ConfTree.Moves.check (Eval.addSpread_renamed callee before)).bind fun args => ?_
      exact evalArguments moves frame callee args rest

end

end Env.Moves
end ConfTree
