import ConfTree.Proofs.Judgement
import ConfTree.Tree.Expression

/-!
Actions that differ in the work they refer to, judged together. An accord is a judgement of families of actions
made by their parts: it holds of a composed family when it holds of its parts, and of what is the same throughout
and leaves nodes and session alone. So it is looked at where the work on a tree refers to other work, and nowhere
else. What catches something thrown only throws it on, or something else in its place.
-/
namespace ConfTree

open StoreM

variable {ι α β : Type}

/-- A judgement of families of actions, made by their parts. -/
structure Accord (ι : Type) where
  Holds : {α : Type} → (ι → StoreM α) → Prop
  quiet : ∀ {α : Type} {a : StoreM α}, Quiet a → Holds fun _ => a
  bind : ∀ {α β : Type} {a : ι → StoreM α} {f : ι → α → StoreM β}, Holds a → (∀ v, Holds fun i => f i v) → Holds fun i => a i >>= f i
  rethrow : ∀ {α : Type} {a : ι → StoreM α} {handle : Thrown → StoreM α}, Holds a →
    (∀ e, Quiet (handle e) ∧ Refuses (handle e)) → Holds fun i => tryCatch (a i) handle

namespace Accord

variable {A : Accord ι}

namespace Holds

variable {a : ι → StoreM α} {f : ι → α → StoreM β}

theorem pure (v : α) : A.Holds fun _ => (Pure.pure v : StoreM α) := A.quiet (.pure v)

theorem bind (first : A.Holds a) (rest : ∀ v, A.Holds fun i => f i v) : A.Holds fun i => a i >>= f i := A.bind first rest

/-- What follows an action that is the same throughout. -/
theorem after {a : StoreM α} (quiet : Quiet a) (rest : ∀ v, A.Holds fun i => f i v) : A.Holds fun i => a >>= f i :=
  A.bind (A.quiet quiet) rest

theorem map {g : α → β} (holds : A.Holds a) : A.Holds fun i => g <$> a i := by
  simp only [map_eq_pure_bind]
  exact holds.bind fun _ => pure _

theorem ite {p : Prop} [Decidable p] {b : ι → StoreM α} (yes : A.Holds a) (no : A.Holds b) :
    A.Holds fun i => if p then a i else b i := by
  by_cases holds : p
  · simpa only [if_pos holds] using yes
  · simpa only [if_neg holds] using no

/-- What follows a check, whether it is made or not. -/
theorem checked {p : Prop} [Decidable p] {check : StoreM β} (checks : Quiet check) (holds : A.Holds a) :
    A.Holds fun i => if p then check >>= fun _ => a i else a i := ite (after checks fun _ => holds) holds

theorem mapM {f : ι → α → StoreM β} (xs : List α) (holds : ∀ x, A.Holds fun i => f i x) : A.Holds fun i => xs.mapM (f i) := by
  induction xs with
  | nil => exact pure _
  | cons x rest ih =>
    simp only [Runs.mapM_cons]
    exact (holds x).bind fun _ => ih.bind fun _ => pure _

theorem forM {f : ι → α → StoreM PUnit} (xs : List α) (holds : ∀ x, A.Holds fun i => f i x) : A.Holds fun i => xs.forM (f i) := by
  induction xs with
  | nil => exact pure _
  | cons x rest ih =>
    simp only [Runs.forM_cons]
    exact (holds x).bind fun _ => ih

theorem foldlM {f : ι → β → α → StoreM β} (xs : List α) (holds : ∀ b x, A.Holds fun i => f i b x) (b : β) :
    A.Holds fun i => xs.foldlM (f i) b := by
  induction xs generalizing b with
  | nil => exact pure _
  | cons x rest ih =>
    simp only [List.foldlM_cons]
    exact (holds b x).bind ih

end Holds

/-! ## Expressions -/

/-- Environments with the same names, of whose calling, indexing and operations an accord holds. -/
structure Kept (A : Accord ι) (env : ι → Env) : Prop where
  names : ∃ lookup : Frame → Text → Except EvalIssue Value, ∀ i frame name, Eval.lookup (env i) frame name = lookup frame name
  invoke : ∀ o args keyword, A.Holds fun i => (env i).invoke o args keyword
  subscript : ∀ o key, A.Holds fun i => (env i).subscript o key
  operate : ∀ op v w, A.Holds fun i => (env i).operate op v w

namespace Kept

variable {env : ι → Env}

theorem index (kept : A.Kept env) (object key : Value) : A.Holds fun i => Eval.index (env i) object key := by
  unfold Eval.index
  cases Sequence.index? object key with
  | some found =>
    cases found with
    | ok v => exact .pure v
    | error failure => exact A.quiet (Quiet.throwFailure _)
  | none =>
    cases object with
    | object o => exact .ite (kept.subscript o key) (A.quiet (Quiet.refuse _))
    | _ => exact A.quiet (Quiet.refuse _)

theorem call (kept : A.Kept env) (name : Text) (callee : Value) (args : Eval.Arguments) :
    A.Holds fun i => Eval.call (env i) name callee args := by
  cases callee with
  | object o =>
    refine .checked (Quiet.refuse _) (A.rethrow (kept.invoke o args.positional args.keyword) fun e => ?_)
    cases e with
    | fault id => exact ⟨.throw _,.throw _⟩
    | foreign message => exact ⟨Quiet.refuse _,.throwCause _⟩
  | _ => exact A.quiet (Quiet.refuse _)

mutual

theorem eval (kept : A.Kept env) (frame : Frame) (e : Expr) : A.Holds fun i => Eval.eval (env i) frame e := by
  cases e with
  | literal l => exact .pure _
  | name name =>
    obtain ⟨lookup,same⟩ := kept.names
    simp only [Eval.eval,same]
    exact A.quiet (Quiet.check _)
  | list items => exact (evalItems kept frame items).bind fun _ => A.quiet (Quiet.compute _)
  | set items => exact (evalItems kept frame items).bind fun _ => A.quiet (Quiet.compute _)
  | mapping entries => exact (evalEntries kept frame [] entries).bind fun _ => A.quiet (Quiet.compute _)
  | comprehension kind element clauses =>
    refine (evalClauses kept frame clauses fun inner => ?_).bind fun _ => A.quiet (Quiet.compute _)
    exact (eval kept inner element).bind fun _ => .pure _
  | mappingComprehension key value clauses =>
    refine (evalClauses kept frame clauses fun inner => ?_).bind fun _ => A.quiet (Quiet.compute _)
    exact (eval kept inner key).bind fun _ => .after (Quiet.check _) fun _ => (eval kept inner value).bind fun _ => .pure _
  | unary op argument => exact (eval kept frame argument).bind fun _ => A.quiet (Quiet.check _)
  | binary op left right => exact (eval kept frame left).bind fun l => (eval kept frame right).bind (kept.operate op l)
  | logical op left right => exact (eval kept frame left).bind fun l => .ite (.pure _) (eval kept frame right)
  | compare first rest => exact (eval kept frame first).bind fun l => evalChain kept frame l rest
  | conditional test consequent alternate =>
    exact (eval kept frame test).bind fun v => .ite (eval kept frame consequent) (eval kept frame alternate)
  | call callee args =>
    exact (eval kept frame callee).bind fun target => (evalArguments kept frame _ _ args).bind fun _ => kept.call _ _ _
  | index object key => exact (eval kept frame object).bind fun o => (eval kept frame key).bind fun _ => kept.index _ _
  | slice object start stop step =>
    exact (eval kept frame object).bind fun o => (evalBound kept frame start).bind fun _ =>
      (evalBound kept frame stop).bind fun _ => (evalBound kept frame step).bind fun _ => A.quiet (Quiet.compute _)

theorem evalBound (kept : A.Kept env) (frame : Frame) (e : Option Expr) : A.Holds fun i => Eval.evalBound (env i) frame e := by
  cases e with
  | none => exact .pure _
  | some e => exact eval kept frame e

theorem evalChain (kept : A.Kept env) (frame : Frame) (left : Value) (links : List (CompareOp × Expr)) :
    A.Holds fun i => Eval.evalChain (env i) frame left links := by
  cases links with
  | nil => exact .pure _
  | cons link rest =>
    obtain ⟨op,operand⟩ := link
    exact (eval kept frame operand).bind fun right => .after (Quiet.check _) fun _ => .ite (evalChain kept frame right rest) (.pure _)

theorem evalItems (kept : A.Kept env) (frame : Frame) (items : List Item) : A.Holds fun i => Eval.evalItems (env i) frame items := by
  cases items with
  | nil => exact .pure _
  | cons item rest =>
    cases item with
    | one e => exact (eval kept frame e).bind fun _ => (evalItems kept frame rest).bind fun _ => .pure _
    | spread e => exact (eval kept frame e).bind fun _ => .after (Quiet.check _) fun _ => (evalItems kept frame rest).bind fun _ => .pure _

theorem evalEntries (kept : A.Kept env) (frame : Frame) (before : Pairs) (entries : List Entry) :
    A.Holds fun i => Eval.evalEntries (env i) frame before entries := by
  cases entries with
  | nil => exact .pure _
  | cons entry rest =>
    cases entry with
    | spread e => exact (eval kept frame e).bind fun _ => .after (Quiet.check _) fun _ => evalEntries kept frame _ rest
    | pair key value =>
      exact (eval kept frame key).bind fun _ => .after (Quiet.check _) fun _ => (eval kept frame value).bind fun _ =>
        evalEntries kept frame _ rest

theorem evalClauses (kept : A.Kept env) (frame : Frame) (clauses : List Clause) {emit : ι → Frame → StoreM (Text × Value)}
    (emits : ∀ inner, A.Holds fun i => emit i inner) : A.Holds fun i => Eval.evalClauses (env i) frame clauses (emit i) := by
  cases clauses with
  | nil => exact (emits frame).bind fun _ => .pure _
  | cons clause rest =>
    cases clause with
    | when test => exact (eval kept frame test).bind fun v => .ite (evalClauses kept frame rest emits) (.pure _)
    | each targets iterable =>
      refine (eval kept frame iterable).bind fun _ => .after (Quiet.check _) fun items => ?_
      refine (Holds.mapM items fun item => ?_).bind fun _ => .pure _
      exact .after (Quiet.check _) fun vars => evalClauses kept _ rest emits

theorem evalArguments (kept : A.Kept env) (frame : Frame) (callee : Text) (before : Eval.Arguments) (args : List Argument) :
    A.Holds fun i => Eval.evalArguments (env i) frame callee before args := by
  cases args with
  | nil => exact .pure _
  | cons argument rest =>
    cases argument with
    | positional e => exact (eval kept frame e).bind fun _ => evalArguments kept frame callee _ rest
    | keyword name e => exact (eval kept frame e).bind fun _ => .after (Quiet.check _) fun _ => evalArguments kept frame callee _ rest
    | spread e => exact (eval kept frame e).bind fun _ => .after (Quiet.check _) fun _ => evalArguments kept frame callee _ rest

end

end Kept
end Accord
end ConfTree
