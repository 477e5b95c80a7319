import ConfTree.Proofs.Runs
import ConfTree.Tree.Outline
import ConfTree.Tree.Expression

/-!
Refinement: one action is below another when whatever it comes to, the other comes to as well; where it
does not end, the other may do anything. Work that refers to work below other work is below what refers to
the latter in the same way, so the depth to which the work on a tree is tied together bounds it and decides
nothing else.
-/
namespace ConfTree

open StoreM

variable {α β : Type}

/-- Each run of the first action is a run of the second one. -/
def Below (a b : StoreM α) : Prop := ∀ s r t, Runs a s r t → Runs b s r t

namespace Below

variable {a b c : StoreM α} {f g : α → StoreM β}

theorem refl (a : StoreM α) : Below a a := fun _ _ _ run => run

theorem trans {c : StoreM α} (first : Below a b) (second : Below b c) : Below a c := fun s r t run => second s r t (first s r t run)

theorem unending (a : StoreM α) : Below StoreM.unending a := fun _ _ _ run => absurd run Runs.unending_iff

theorem bind (first : Below a b) (rest : ∀ v, Below (f v) (g v)) : Below (a >>= f) (b >>= g) := by
  intro s r t run
  rcases Runs.bind_inv run with ⟨v,u,first_run,last_run⟩ | ⟨e,first_run,rfl⟩
  · exact (first _ _ _ first_run).bind (rest v _ _ _ last_run)
  · exact (first _ _ _ first_run).bind_error

/-- What follows the same first step. -/
theorem after (a : StoreM α) (rest : ∀ v, Below (f v) (g v)) : Below (a >>= f) (a >>= g) := (refl a).bind rest

theorem map {h : α → β} (below : Below a b) : Below (h <$> a) (h <$> b) := by
  rw [map_eq_pure_bind,map_eq_pure_bind]
  exact below.bind fun _ => refl _

theorem tryCatch {handle handle' : Thrown → StoreM α} (below : Below a b) (handled : ∀ e, Below (handle e) (handle' e)) :
    Below (tryCatch a handle) (tryCatch b handle') := by
  intro s r t run
  rcases Runs.tryCatch_inv run with ⟨v,rfl,first⟩ | ⟨e,u,first,last⟩
  · exact Runs.tryCatch_ok (below _ _ _ first)
  · exact Runs.tryCatch_error (below _ _ _ first) (handled e _ _ _ last)

theorem ite {p : Prop} [Decidable p] {a' b' : StoreM α} (yes : Below a a') (no : Below b b') :
    Below (if p then a else b) (if p then a' else b') := by
  by_cases holds : p
  · rw [if_pos holds,if_pos holds]
    exact yes
  · rw [if_neg holds,if_neg holds]
    exact no

/-- What follows a check, whether it is made or not. -/
theorem checked {p : Prop} [Decidable p] (check : StoreM β) (below : Below a b) :
    Below (if p then check >>= fun _ => a else a) (if p then check >>= fun _ => b else b) :=
  ite (after check fun _ => below) below

theorem mapM {f g : α → StoreM β} (xs : List α) (below : ∀ x, Below (f x) (g x)) : Below (xs.mapM f) (xs.mapM g) := by
  induction xs with
  | nil => exact refl _
  | cons x rest ih =>
    rw [Runs.mapM_cons,Runs.mapM_cons]
    exact (below x).bind fun _ => ih.bind fun _ => refl _

theorem forM {f g : α → StoreM PUnit} (xs : List α) (below : ∀ x, Below (f x) (g x)) : Below (xs.forM f) (xs.forM g) := by
  induction xs with
  | nil => exact refl _
  | cons x rest ih =>
    rw [Runs.forM_cons,Runs.forM_cons]
    exact (below x).bind fun _ => ih

theorem foldlM {f g : β → α → StoreM β} (xs : List α) (below : ∀ b x, Below (f b x) (g b x)) (b : β) :
    Below (xs.foldlM f b) (xs.foldlM g b) := by
  induction xs generalizing b with
  | nil => exact refl _
  | cons x rest ih =>
    rw [List.foldlM_cons,List.foldlM_cons]
    exact (below b x).bind ih

theorem cleaningUp (below : Below a b) (cleanup : StoreM Unit) : Below (cleaningUp a cleanup) (cleaningUp b cleanup) :=
  (below.map.tryCatch fun _ => refl _).bind fun _ => refl _

end Below

/-! ## Expressions -/

/-- The names are the same, and calling, indexing and operations are below. -/
structure Env.Below (env env' : Env) : Prop where
  locals : env.locals = env'.locals
  context : env.context = env'.context
  invoke : ∀ o args keyword, ConfTree.Below (env.invoke o args keyword) (env'.invoke o args keyword)
  subscript : ∀ o key, ConfTree.Below (env.subscript o key) (env'.subscript o key)
  operate : ∀ op v w, ConfTree.Below (env.operate op v w) (env'.operate op v w)

namespace Env.Below

variable {env env' : Env}

theorem lookup (below : env.Below env') (frame : Frame) (name : Text) : Eval.lookup env frame name = Eval.lookup env' frame name := by
  rw [Eval.lookup,Eval.lookup,below.locals,below.context]

theorem index (below : env.Below env') (object key : Value) :
    ConfTree.Below (Eval.index env object key) (Eval.index env' object key) := by
  unfold Eval.index
  cases Sequence.index? object key with
  | some found => cases found <;> exact .refl _
  | none =>
    cases object with
    | object o => exact .ite (below.subscript _ _) (.refl _)
    | _ => exact .refl _

theorem call (below : env.Below env') (name : Text) (callee : Value) (args : Eval.Arguments) :
    ConfTree.Below (Eval.call env name callee args) (Eval.call env' name callee args) := by
  cases callee with
  | object o => exact .checked _ ((below.invoke o args.positional args.keyword).tryCatch fun _ => .refl _)
  | _ => exact .refl _

mutual

theorem eval (below : env.Below env') (frame : Frame) (e : Expr) :
    ConfTree.Below (Eval.eval env frame e) (Eval.eval env' frame e) := by
  cases e with
  | literal l => exact .refl _
  | name name =>
    rw [Eval.eval,Eval.eval,below.lookup]
    exact .refl _
  | list items => exact (evalItems below frame items).bind fun _ => .refl _
  | set items => exact (evalItems below frame items).bind fun _ => .refl _
  | mapping entries => exact (evalEntries below frame [] entries).bind fun _ => .refl _
  | comprehension kind element clauses =>
    exact (evalClauses below frame clauses fun inner => (eval below inner element).bind fun _ => .refl _).bind fun _ => .refl _
  | mappingComprehension key value clauses =>
    refine (evalClauses below frame clauses fun inner => ?_).bind fun _ => .refl _
    exact (eval below inner key).bind fun _ => .after _ fun _ => (eval below inner value).bind fun _ => .refl _
  | unary op argument => exact (eval below frame argument).bind fun _ => .refl _
  | binary op left right => exact (eval below frame left).bind fun l => (eval below frame right).bind (below.operate op l)
  | logical op left right => exact (eval below frame left).bind fun l => .ite (.refl _) (eval below frame right)
  | compare first rest => exact (eval below frame first).bind fun l => evalChain below frame l rest
  | conditional test consequent alternate =>
    exact (eval below frame test).bind fun v => .ite (eval below frame consequent) (eval below frame alternate)
  | call callee args =>
    exact (eval below frame callee).bind fun target => (evalArguments below frame _ _ args).bind fun _ => below.call _ _ _
  | index object key => exact (eval below frame object).bind fun o => (eval below frame key).bind fun _ => below.index _ _
  | slice object start stop step =>
    exact (eval below frame object).bind fun o => (evalBound below frame start).bind fun _ =>
      (evalBound below frame stop).bind fun _ => (evalBound below frame step).bind fun _ => .refl _

theorem evalBound (below : env.Below env') (frame : Frame) (e : Option Expr) :
    ConfTree.Below (Eval.evalBound env frame e) (Eval.evalBound env' frame e) := by
  cases e with
  | none => exact .refl _
  | some e => exact eval below frame e

theorem evalChain (below : env.Below env') (frame : Frame) (left : Value) (links : List (CompareOp × Expr)) :
    ConfTree.Below (Eval.evalChain env frame left links) (Eval.evalChain env' frame left links) := by
  cases links with
  | nil => exact .refl _
  | cons link rest =>
    obtain ⟨op,operand⟩ := link
    exact (eval below frame operand).bind fun right => .after _ fun _ => .ite (evalChain below frame right rest) (.refl _)

theorem evalItems (below : env.Below env') (frame : Frame) (items : List Item) :
    ConfTree.Below (Eval.evalItems env frame items) (Eval.evalItems env' frame items) := by
  cases items with
  | nil => exact .refl _
  | cons item rest =>
    cases item with
    | one e => exact (eval below frame e).bind fun _ => (evalItems below frame rest).bind fun _ => .refl _
    | spread e => exact (eval below frame e).bind fun _ => .after _ fun _ => (evalItems below frame rest).bind fun _ => .refl _

theorem evalEntries (below : env.Below env') (frame : Frame) (before : Pairs) (entries : List Entry) :
    ConfTree.Below (Eval.evalEntries env frame before entries) (Eval.evalEntries env' frame before entries) := by
  cases entries with
  | nil => exact .refl _
  | cons entry rest =>
    cases entry with
    | spread e => exact (eval below frame e).bind fun _ => .after _ fun _ => evalEntries below frame _ rest
    | pair key value =>
      exact (eval below frame key).bind fun _ => .after _ fun _ => (eval below frame value).bind fun _ =>
        evalEntries below frame _ rest

theorem evalClauses (below : env.Below env') (frame : Frame) (clauses : List Clause) {emit emit' : Frame → StoreM (Text × Value)}
    (emits : ∀ inner, ConfTree.Below (emit inner) (emit' inner)) :
    ConfTree.Below (Eval.evalClauses env frame clauses emit) (Eval.evalClauses env' frame clauses emit') := by
  cases clauses with
  | nil => exact (emits frame).bind fun _ => .refl _
  | cons clause rest =>
    cases clause with
    | when test => exact (eval below frame test).bind fun v => .ite (evalClauses below frame rest emits) (.refl _)
    | each targets iterable =>
      refine (eval below frame iterable).bind fun _ => .after _ fun items => ?_
      refine (ConfTree.Below.mapM items fun item => ?_).bind fun _ => .refl _
      exact .after _ fun vars => evalClauses below _ rest emits

theorem evalArguments (below : env.Below env') (frame : Frame) (callee : Text) (before : Eval.Arguments) (args : List Argument) :
    ConfTree.Below (Eval.evalArguments env frame callee before args) (Eval.evalArguments env' frame callee before args) := by
  cases args with
  | nil => exact .refl _
  | cons argument rest =>
    cases argument with
    | positional e => exact (eval below frame e).bind fun _ => evalArguments below frame callee _ rest
    | keyword name e => exact (eval below frame e).bind fun _ => .after _ fun _ => evalArguments below frame callee _ rest
    | spread e => exact (eval below frame e).bind fun _ => .after _ fun _ => evalArguments below frame callee _ rest

end

end Env.Below
end ConfTree
