import ConfTree.Configuration
import ConfTree.Proofs.Refinement

/-!
Work on a tree that refers to work below other work. Everything built from the former is below what is built
from the latter in the same way (`Calls.Below`), up to the readings of a configuration; with it, what work to
one depth comes to, work to each greater depth comes to as well (`Calls.ofDepth_le`).
-/
namespace ConfTree

open StoreM

/-- All work of the first is below that of the second. -/
structure Calls.Below (calls calls' : Calls) : Prop where
  resolve : ∀ id, ConfTree.Below (calls.resolve id) (calls'.resolve id)
  settle : ∀ id, ConfTree.Below (calls.settle id) (calls'.settle id)
  settled : ∀ id, ConfTree.Below (calls.settled id) (calls'.settled id)
  child : ∀ id selector, ConfTree.Below (calls.child id selector) (calls'.child id selector)
  declaration : ∀ id, ConfTree.Below (calls.declaration id) (calls'.declaration id)
  apply : ∀ m id, ConfTree.Below (calls.apply m id) (calls'.apply m id)
  invoke : ∀ o args keyword, ConfTree.Below (calls.invoke o args keyword) (calls'.invoke o args keyword)
  operate : ∀ op v w, ConfTree.Below (calls.operate op v w) (calls'.operate op v w)

namespace Calls.Below

theorem exhausted (calls : Calls) : exhausted.Below calls :=
  ⟨fun _ => .unending _,fun _ => .unending _,fun _ => .unending _,fun _ _ => .unending _,fun _ => .unending _,
    fun _ _ => .unending _,fun _ _ _ => .unending _,fun _ _ _ => .unending _⟩

variable {calls calls' calls'' : Calls} (below : calls.Below calls') (host : Host)
include below

theorem trans (above : calls'.Below calls'') : calls.Below calls'' :=
  ⟨fun id => (below.resolve id).trans (above.resolve id),fun id => (below.settle id).trans (above.settle id),
    fun id => (below.settled id).trans (above.settled id),fun id selector => (below.child id selector).trans (above.child id selector),
    fun id => (below.declaration id).trans (above.declaration id),fun m id => (below.apply m id).trans (above.apply m id),
    fun o args keyword => (below.invoke o args keyword).trans (above.invoke o args keyword),
    fun op v w => (below.operate op v w).trans (above.operate op v w)⟩

/-! ## Navigation and objects -/

theorem settled_step (id : NodeId) : ConfTree.Below (Navigate.settled calls id) (Navigate.settled calls' id) :=
  .after _ fun node => (below.settle node).bind fun _ => .after _ fun _ => .ite (below.settled node) (.refl _)

theorem entryValue (entry : NodeId) : ConfTree.Below (Navigate.entryValue calls entry) (Navigate.entryValue calls' entry) :=
  (below.settle entry).bind fun _ => .refl _

theorem selectChild (node : NodeId) (selector : Selector) :
    ConfTree.Below (Navigate.selectChild calls node selector) (Navigate.selectChild calls' node selector) := by
  refine .after _ fun n => ?_
  cases n.body with
  | scalar => exact .refl _
  | entry => exact (below.entryValue node).bind fun value => below.child value selector
  | sequence => cases selector <;> exact .refl _
  | mapping =>
    cases selector with
    | index => exact .refl _
    | key key => exact .after _ fun (entry,entryOnly) => .ite (.refl _) (below.entryValue entry)

theorem child_step (id : NodeId) (selector : Selector) :
    ConfTree.Below (Navigate.child calls id selector) (Navigate.child calls' id selector) :=
  (below.settled_step id).bind fun node => below.selectChild node selector

theorem fromAddress (id : NodeId) (address : Text) :
    ConfTree.Below (Navigate.fromAddress calls id address) (Navigate.fromAddress calls' id address) := by
  refine .after _ fun start => ?_
  cases Address.parse address with
  | error issue => exact .refl _
  | ok steps =>
    refine .foldlM steps (fun node step => ?_) start
    cases step with
    | ascend levels => exact .refl _
    | select selector => exact below.child node selector

theorem childOf (args : List Value) : ConfTree.Below (Invoke.child calls args) (Invoke.child calls' args) := by
  have the (node : NodeId) (selector : Selector) : ConfTree.Below (do nodeValue (← calls.child node selector))
    (do nodeValue (← calls'.child node selector)) := (below.child node selector).bind fun _ => .refl _
  refine .ite (.after _ fun _ => ?_) ?_
  all_goals
    refine .after _ fun id => (below.settled id).bind fun node => .after _ fun s => ?_
    cases (s.node node).body with
    | mapping =>
      dsimp only
      generalize s.keys node = keys
      match keys with
      | [key] => exact the node _
      | [] | _ :: _ :: _ => exact .refl _
    | sequence => exact .ite (.after _ fun _ => the node _) (the node _)
    | _ => exact .refl _

theorem function (callable : Callable) (args : List Value) (keyword : Pairs) :
    ConfTree.Below (Invoke.function host calls callable args keyword) (Invoke.function host calls' callable args keyword) := by
  cases callable with
  | builtin f =>
    cases f with
    | child => exact below.childOf args
    | _ => exact .refl _
  | ref scope => exact .after _ fun address => (below.fromAddress scope address).bind below.resolve
  | node scope => exact .after _ fun address => (below.fromAddress scope address).bind fun _ => .refl _
  | host name => exact .refl _

theorem object (o : Object) (args : List Value) (keyword : Pairs) :
    ConfTree.Below (Invoke.object host calls o args keyword) (Invoke.object host calls' o args keyword) := by
  cases o with
  | node id kind =>
    have value (address : Text) := (below.fromAddress id address).bind below.resolve
    exact .ite (.after _ fun _ => .after _ value) (.after _ value)
  | function id callable => exact below.function host callable args keyword
  | _ => exact .refl _

theorem subscript (o : Object) (key : Value) :
    ConfTree.Below (Invoke.subscript host calls o key) (Invoke.subscript host calls' o key) := by
  cases o with
  | node id kind =>
    cases key with
    | text name => exact (below.child id (.key name)).bind fun _ => .refl _
    | number index => exact (below.child id (.index index)).bind fun _ => .refl _
    | _ => exact .refl _
  | _ => cases key <;> exact .refl _

/-! ## Sources and modifiers -/

theorem env (context locals : Pairs) : (Expression.env host calls context locals).Below (Expression.env host calls' context locals) :=
  ⟨rfl,rfl,below.invoke,below.subscript host,below.operate⟩

omit below in
theorem guarded {α : Type} (source : Text) {a b : StoreM α} (below : ConfTree.Below a b) :
    ConfTree.Below (Expression.guarded source a) (Expression.guarded source b) := below.tryCatch fun _ => .refl _

theorem evaluate (source : Text) (locals : Pairs) :
    ConfTree.Below (Expression.evaluate host calls source locals) (Expression.evaluate host calls' source locals) :=
  .after _ fun _ => .after _ fun e => guarded source ((below.env host _ _).eval [] e)

theorem declared {α : Type} (read : Text → Value → Except ConstructionIssue α) (source : Text) (locals : Pairs) :
    ConfTree.Below (Expression.declared host calls read source locals) (Expression.declared host calls' read source locals) :=
  (ConfTree.Below.after _ fun _ => .after _ fun es => guarded source (.mapM es fun e => (below.env host _ _).eval [] e)).bind
    fun _ => .refl _

theorem types (source : Text) (locals : Pairs) :
    ConfTree.Below (Expression.types host calls source locals) (Expression.types host calls' source locals) :=
  below.declared host Expression.asType source locals

theorem modifiers (source : Text) (locals : Pairs) :
    ConfTree.Below (Expression.modifiers host calls source locals) (Expression.modifiers host calls' source locals) :=
  below.declared host Expression.asModifier source locals

theorem declarationOf (source : DeclarationSource) (locals : Pairs) :
    ConfTree.Below (Expression.declaration host calls source locals) (Expression.declaration host calls' source locals) := by
  have listed : ConfTree.Below (source.types.mapM fun s => Expression.types host calls s locals)
      (source.types.mapM fun s => Expression.types host calls' s locals) := by
    cases source.types with
    | none =>
      rw [Option.mapM_none,Option.mapM_none]
      exact .refl _
    | some s => exact (below.types host s locals).map
  refine listed.bind fun types => ?_
  dsimp only
  cases source.modifiers with
  | none => exact .refl _
  | some s => exact (below.modifiers host s locals).bind fun _ => .refl _

theorem choose (node : NodeId) (options : Pairs) (fallback : Option Text) :
    ConfTree.Below (Modify.choose calls node options fallback) (Modify.choose calls' node options fallback) :=
  (below.resolve node).bind fun _ => .refl _

theorem extend (id : NodeId) (base : Base) : ConfTree.Below (Modify.extend calls id base) (Modify.extend calls' id base) := by
  have found (node : NodeId) : ConfTree.Below (Modify.baseNode calls node base) (Modify.baseNode calls' node base) := by
    cases base with
    | node id => exact .refl _
    | address address => exact .after _ fun _ => .after _ fun _ => below.fromAddress _ address
  refine .after _ fun node => .after _ fun kind => .ite (.after _ fun _ => .after _ fun _ => ?_) ?_
  all_goals exact (found node).bind fun b => (below.settled b).bind fun _ => .refl _

theorem load (node : NodeId) (group : Option Text) (vars : Pairs) :
    ConfTree.Below (Modify.load calls node group vars) (Modify.load calls' node group vars) :=
  .after _ fun _ => .ite (.refl _) ((below.resolve node).bind fun _ => .refl _)

theorem sources (mapping : NodeId) (key : Text) :
    ConfTree.Below (Modify.sources calls mapping key) (Modify.sources calls' mapping key) := by
  refine .after _ fun s => .ite (.refl _) ?_
  exact (below.child mapping (.key key)).bind fun id => (below.resolve id).bind fun _ => .refl _

theorem applyAll (node : NodeId) (modifiers : List ModifierObject) :
    ConfTree.Below (Modify.applyAll calls node modifiers) (Modify.applyAll calls' node modifiers) :=
  .foldlM modifiers (fun node m => (below.apply m node).bind fun _ => .refl _) node

theorem fuse (node : NodeId) : ConfTree.Below (Modify.fuse host calls node) (Modify.fuse host calls' node) := by
  refine (below.settled node).bind fun mapping => .after _ fun s => .ite (.after _ fun _ => .ite (.after _ fun _ => ?_) ?_)
    (.ite (.after _ fun _ => ?_) ?_)
  all_goals
    refine (below.sources mapping "types").bind fun typeSources => (below.sources mapping "modifiers").bind fun modifierSources => ?_
    refine (below.child mapping (.key "value")).bind fun value => .after _ fun start => .after _ fun _ => ?_
    refine ConfTree.Below.bind (.foldlM modifierSources (fun node source => ?_) start) fun result => .ite ?_ (.refl _)
    · exact .after _ fun locals => (below.modifiers host source locals).bind fun modifiers => below.applyAll node modifiers
    · exact .after _ fun locals => (ConfTree.Below.mapM typeSources fun source => below.types host source locals).bind fun _ => .refl _

theorem apply_step (m : ModifierObject) (node : NodeId) :
    ConfTree.Below (Modify.apply host calls m node) (Modify.apply host calls' m node) := by
  unfold Modify.apply
  match m.modifier with
  | .fuse => exact (below.fuse host node).map
  | .options options fallback => exact (below.choose node options fallback).map
  | .extends base => exact (below.extend node base).map
  | .load group vars => exact below.load node group _
  | .visibility _ | .required | .noop | .promote | .rename _ | .values _ | .cast _ | .custom .. => exact .refl _

/-! ## Resolution and configurations -/

omit below in
theorem guarded_work {α : Type} (id : NodeId) (wrap : Text → Cause) (remember : FaultId → StoreM Unit) {a b : StoreM α}
    (below : ConfTree.Below a b) : ConfTree.Below (Resolve.guarded id wrap remember a) (Resolve.guarded id wrap remember b) :=
  .after _ fun _ => (below.tryCatch fun _ => .refl _).cleaningUp _

theorem settleEntries (mapping : NodeId) (entries : List NodeId) :
    ConfTree.Below (Resolve.settleEntries calls mapping entries) (Resolve.settleEntries calls' mapping entries) := by
  induction entries with
  | nil => exact .refl _
  | cons entry rest ih => exact .after _ fun _ => .ite (.refl _) ((below.settle entry).bind fun _ => ih)

theorem declaration_step (id : NodeId) :
    ConfTree.Below (Resolve.declaration host calls id) (Resolve.declaration host calls' id) := by
  refine .after _ fun n => ?_
  cases n.body with
  | entry head slot declared renamed modification evaluated =>
    cases evaluated with
    | some d => exact .refl _
    | none =>
      refine .after _ fun _ => .after _ fun s => .after _ fun locals => (below.declarationOf host _ locals).bind fun own => ?_
      cases head.inherited with
      | none => exact .refl _
      | some base => exact (below.declaration base).bind fun _ => .refl _
  | _ => exact .refl _

theorem applyDeclaration (id slot : NodeId) :
    ConfTree.Below (Resolve.applyDeclaration calls id slot) (Resolve.applyDeclaration calls' id slot) :=
  .after _ fun node => (below.declaration id).bind fun declared => (below.applyAll node declared.modifiers).bind fun _ => .refl _

theorem settle_step (id : NodeId) : ConfTree.Below (Resolve.settle calls id) (Resolve.settle calls' id) := by
  refine .after _ fun n => ?_
  cases n.body with
  | mapping entries isSettled => exact .ite (.after _ fun _ => below.settleEntries id entries) (.refl _)
  | entry head slot declared renamed modification evaluated =>
    cases modification with
    | pending => exact .after _ fun _ => .after _ fun _ => guarded_work id _ _ (below.applyDeclaration id slot)
    | _ => exact .refl _
  | _ => exact .refl _

theorem scalarValue (id : NodeId) (raw : Literal) (override : Option Literal) :
    ConfTree.Below (Resolve.scalarValue host calls id raw override) (Resolve.scalarValue host calls' id raw override) := by
  refine .after _ fun n => .ite (.after _ fun _ => ?_) ?_
  all_goals
    generalize override.getD raw = literal
    cases literal with
    | text t =>
      refine .after _ fun _ => .after _ fun session => ?_
      generalize Resolve.classify session.settings t = read
      cases read with
      | inl literal => exact .refl _
      | inr source =>
        refine .after _ fun locals => (below.evaluate host source locals).bind fun v => ?_
        cases v with
        | object o =>
          cases o with
          | node target kind => exact below.resolve target
          | _ => exact .refl _
        | _ => exact .refl _
    | _ => exact .refl _

theorem pairsOf (emitted : List (Text × Text)) (pairs : Pairs) (entries : List NodeId) :
    ConfTree.Below (Resolve.pairsOf calls emitted pairs entries) (Resolve.pairsOf calls' emitted pairs entries) := by
  induction entries generalizing emitted pairs with
  | nil => exact .refl _
  | cons entry rest ih =>
    refine (below.entryValue entry).bind fun value => .after _ fun s => .ite (ih _ _) ?_
    dsimp only
    cases emitted.lookup (s.exposedKey entry) with
    | none => exact (below.resolve value).bind fun _ => ih _ _
    | some previous => exact .after _ fun _ => (below.resolve value).bind fun _ => ih _ _

theorem computeValue (id : NodeId) : ConfTree.Below (Resolve.computeValue host calls id) (Resolve.computeValue host calls' id) := by
  refine .after _ fun n => ?_
  cases n.body with
  | scalar raw override => exact below.scalarValue host id raw override
  | sequence items => exact .after _ fun s => (ConfTree.Below.mapM _ fun item => below.resolve item).bind fun _ => .refl _
  | mapping entries => exact (below.pairsOf [] [] entries).bind fun _ => .refl _
  | entry => exact .after _ fun s => (below.entryValue id).bind fun value => (below.resolve value).bind fun _ => .refl _

theorem finish (id : NodeId) (computed : Value) :
    ConfTree.Below (Resolve.finish host calls id computed) (Resolve.finish host calls' id computed) := by
  refine .after _ fun n => (ConfTree.Below.foldlM n.transforms (fun v transform => ?_) computed).bind fun _ => .refl _
  cases transform with
  | call function => exact below.invoke function [v] []
  | _ => exact .refl _

theorem work (id : NodeId) : ConfTree.Below (Resolve.work host calls id) (Resolve.work host calls' id) :=
  (below.settle id).bind fun _ => .after _ fun now => .ite
    ((below.computeValue host id).bind fun v => (below.finish host id v).bind fun _ => .refl _)
    ((below.resolve now).bind fun _ => .refl _)

theorem resolve_step (id : NodeId) : ConfTree.Below (Resolve.resolve host calls id) (Resolve.resolve host calls' id) := by
  refine .after _ fun now => .ite (below.resolve now) (.after _ fun n => ?_)
  cases n.resolution with
  | pending => exact .after _ fun _ => .after _ fun _ => guarded_work id _ _ (below.work host id)
  | _ => exact .refl _

end Calls.Below

/-- What work to one depth comes to, work to each greater depth comes to as well. -/
theorem Calls.ofDepth_le (host : Host) {depth deep : Nat} (le : depth ≤ deep) :
    (Calls.ofDepth host depth).Below (Calls.ofDepth host deep) := by
  induction depth generalizing deep with
  | zero => exact .exhausted _
  | succ depth ih =>
    obtain ⟨deep,rfl⟩ : ∃ n, deep = n + 1 := ⟨deep - 1,by omega⟩
    have below := ih (Nat.le_of_succ_le_succ le)
    exact ⟨below.resolve_step host,below.settle_step,below.settled_step,below.child_step,below.declaration_step host,
      below.apply_step host,below.object host,fun _ _ _ => .refl _⟩

namespace Configuration

variable {calls calls' : Calls} (below : calls.Below calls')
include below

theorem createWith_below (host : Host) (options : Options) (raw : Value) :
    Below (createWith host calls options raw) (createWith host calls' options raw) := by
  have text (source : Text) : Below (Overrides.ofText host calls source) (Overrides.ofText host calls' source) :=
    .ite (.refl _) (.after _ fun _ => .after _ fun assignments => .mapM assignments fun a =>
      (below.evaluate host a.source []).bind fun _ => .refl _)
  have input (v : Value) : Below (Overrides.ofInput host calls v) (Overrides.ofInput host calls' v) := by
    cases v with
    | text source => exact text source
    | _ => exact .refl _
  have given : Below (Overrides.ofInputs host calls options.overrides) (Overrides.ofInputs host calls' options.overrides) :=
    (Below.mapM _ input).bind fun _ => .refl _
  exact .after _ fun settings => .after _ fun context => .after _ fun _ => given.bind fun _ => .refl _

theorem getWith_below (address : Text) : Below (getWith calls address) (getWith calls' address) :=
  .after _ fun root => below.fromAddress root address

theorem resolveWith_below : Below (resolveWith calls) (resolveWith calls') := by
  have settled : Below (settleTargets calls) (settleTargets calls') := .after _ fun targets => .forM targets fun target =>
    (getWith_below below target).map.tryCatch fun _ => .refl _
  have reported : Below (reportUnused calls) (reportUnused calls') :=
    .after _ fun _ => .ite (.refl _) (settled.bind fun _ => .refl _)
  exact .after _ fun root => (below.resolve root).bind fun _ => reported.bind fun _ => .refl _

theorem nodeWith_below (selectors : List Selector) : Below (nodeWith calls selectors) (nodeWith calls' selectors) :=
  .after _ fun root => .foldlM selectors below.child root

theorem callWith_below (address : Text) : Below (callWith calls address) (callWith calls' address) :=
  .ite (resolveWith_below below) ((getWith_below below address).bind below.resolve)

theorem describeWith_below (depth : Nat) : Below (describeWith calls depth) (describeWith calls' depth) := by
  have lines (fuel depth : Nat) (opening : Text) (id : NodeId) :
      Below (Outline.lines (Outline.settling calls) fuel depth opening id) (Outline.lines (Outline.settling calls') fuel depth opening id) := by
    induction fuel generalizing depth opening id with
    | zero => exact .refl _
    | succ fuel ih =>
      refine (below.settled id).bind fun live => .after _ fun s => ?_
      cases (s.node live).body with
      | mapping entries =>
        refine (Below.mapM entries fun entry => ?_).bind fun _ => .refl _
        exact (below.entryValue entry).bind fun value => .after _ fun _ => ih _ _ _
      | sequence => exact (Below.mapM _ fun item => ih _ _ _).bind fun _ => .refl _
      | _ => exact .refl _
  exact .after _ fun root => (lines depth 0 .empty root).bind fun _ => .refl _

end Configuration
end ConfTree
