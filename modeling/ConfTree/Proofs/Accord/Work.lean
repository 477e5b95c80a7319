import ConfTree.Proofs.Accord
import ConfTree.Proofs.Discipline.Work

/-!
Navigation, objects, sources and values under an accord. Of the work on a tree they refer to what finds nodes,
resolves and settles them and calls objects, never to declarations and modifiers; where an accord holds of the
former (`Accord.Sound`), it holds of whatever computes the value of a node (`Accord.value_holds`).
-/
namespace ConfTree

open StoreM

variable {ι : Type}

/-- An accord holds of the work on a tree by which nodes are found and resolved. -/
structure Accord.OnTree (A : Accord ι) (calls : ι → Calls) : Prop where
  resolve : ∀ id, A.Holds fun i => (calls i).resolve id
  settle : ∀ id, A.Holds fun i => (calls i).settle id
  settled : ∀ id, A.Holds fun i => (calls i).settled id
  child : ∀ id selector, A.Holds fun i => (calls i).child id selector

/-- An accord holds of the work on a tree that expressions refer to, of the search for the session, and of the
functions that need no tree. -/
structure Accord.Sound (A : Accord ι) (calls : ι → Calls) : Prop extends A.OnTree calls where
  attached : ∀ id, A.Holds fun _ => requireSession id
  invoke : ∀ o args keyword, A.Holds fun i => (calls i).invoke o args keyword
  operate : ∀ op v w, A.Holds fun i => (calls i).operate op v w

namespace Accord

variable {A : Accord ι} {calls : ι → Calls}

/-! ## Navigation and objects -/

theorem entryValue_holds (settles : ∀ id, A.Holds fun i => (calls i).settle id) (entry : NodeId) :
    A.Holds fun i => Navigate.entryValue (calls i) entry := (settles entry).bind fun _ => A.quiet (Quiet.get.bind fun _ => .pure _)

theorem selectIn_holds (on : A.OnTree calls) (node : NodeId) (selector : Selector) (body : Body) :
    A.Holds fun i => Navigate.selectIn (calls i) node selector body := by
  have same {a : StoreM NodeId} (quiet : Quiet a) : A.Holds fun _ : ι => a := A.quiet quiet
  have nowhere (issue : Text → AddressIssue) : Quiet (do throwCause (.address (issue (← nameOf node))) : StoreM NodeId) :=
    (Quiet.nameOf node).bind fun _ => Quiet.throwCause _
  cases body with
  | scalar => exact same (nowhere _)
  | entry => exact (entryValue_holds on.settle node).bind fun id => on.child id selector
  | sequence items declared isSettled =>
    cases selector with
    | key => exact same (nowhere _)
    | index index => exact .after (Judgement.itemPlace_quiet node _ index) fun i => same (Quiet.current _)
  | mapping entries isSettled =>
    cases selector with
    | index => exact same (nowhere _)
    | key key =>
      refine .after (Judgement.selectEntry_quiet node key) fun (entry,entryOnly) => ?_
      cases entryOnly with
      | true => exact .pure _
      | false => exact entryValue_holds on.settle entry

theorem settleEntries_holds (settles : ∀ id, A.Holds fun i => (calls i).settle id) (mapping : NodeId) (entries : List NodeId) :
    A.Holds fun i => Resolve.settleEntries (calls i) mapping entries := by
  induction entries with
  | nil => exact .pure _
  | cons entry rest ih => exact .after (Quiet.getNode mapping) fun _ => .ite (.pure _) ((settles entry).bind fun _ => ih)

section OnTree

variable (on : A.OnTree calls)
include on

theorem settled_holds (id : NodeId) : A.Holds fun i => Navigate.settled (calls i) id :=
  .after (Quiet.current id) fun node => (on.settle node).bind fun _ => .after (Quiet.getNode node) fun _ =>
    .ite (on.settled node) (.pure _)

theorem child_holds (id : NodeId) (selector : Selector) : A.Holds fun i => Navigate.child (calls i) id selector :=
  (settled_holds on id).bind fun node => .after (Quiet.getNode node) fun n => selectIn_holds on node selector n.body

theorem fromAddress_holds (id : NodeId) (address : Text) : A.Holds fun i => Navigate.fromAddress (calls i) id address :=
  .after (Quiet.current id) fun start => by
    cases Address.parse address with
    | error issue => exact A.quiet (Quiet.throwCause _)
    | ok steps =>
      refine .foldlM steps (fun node step => ?_) start
      cases step with
      | ascend levels => exact A.quiet (Judgement.ascendBy_quiet address levels node)
      | select selector => exact on.child node selector

theorem childOf_holds (args : List Value) : A.Holds fun i => Invoke.child (calls i) args := by
  refine .checked (Quiet.refuse _) (.after (Judgement.expectNode_quiet _ _) fun id => (on.settled id).bind fun node => ?_)
  refine .after Quiet.get fun s => ?_
  have the (selector : Selector) : A.Holds fun i => (do nodeValue (← (calls i).child node selector)) :=
    (on.child node selector).bind fun _ => A.quiet (Quiet.nodeValue _)
  have none : A.Holds fun _ : ι => (do refuse (.childOf (← nodeValue node).typeName) : StoreM Value) :=
    A.quiet ((Quiet.nodeValue node).bind fun _ => Quiet.refuse _)
  cases (s.node node).body with
  | mapping =>
    cases s.keys node with
    | nil => exact A.quiet (Quiet.refuse _)
    | cons key more =>
      cases more with
      | nil => exact the _
      | cons => exact A.quiet (Quiet.refuse _)
  | sequence items declared isSettled => exact .checked (Quiet.refuse _) (the _)
  | _ => exact none

/-- Of a call an accord holds if it does where the call is one of a function that needs no tree. -/
theorem function_holds (host : Host) (callable : Callable) (args : List Value) (keyword : Pairs)
    (alone : ∀ f, callable = .builtin f → A.Holds fun _ => Functions.call host f args keyword) :
    A.Holds fun i => Invoke.function host (calls i) callable args keyword := by
  cases callable with
  | builtin f =>
    cases f with
    | parent => exact A.quiet (Judgement.parent_quiet args keyword)
    | child => exact childOf_holds on args
    | rawValue => exact A.quiet (Judgement.rawValue_quiet args)
    | _ => exact alone _ rfl
  | ref scope => exact .after (Quiet.check _) fun address => (fromAddress_holds on scope address).bind on.resolve
  | node scope =>
    exact .after (Quiet.check _) fun address => (fromAddress_holds on scope address).bind fun id => A.quiet (Quiet.nodeValue id)
  | host name => exact A.quiet (Judgement.hostFunction_quiet host name args keyword)

theorem object_holds (host : Host) (o : Object) (args : List Value) (keyword : Pairs)
    (alone : ∀ f, A.Holds fun _ => Functions.call host f args keyword) :
    A.Holds fun i => Invoke.object host (calls i) o args keyword := by
  cases o with
  | node id kind =>
    exact .checked (Quiet.refuse _) (.after (Quiet.check _) fun address => (fromAddress_holds on id address).bind on.resolve)
  | function id callable => exact function_holds on host callable args keyword fun f _ => alone f
  | type type => exact A.quiet (Judgement.cast_quiet type args keyword)
  | factory | modifier => exact A.quiet (Quiet.compute _)
  | foreign => exact .pure _

theorem subscript_holds (host : Host) (o : Object) (key : Value) : A.Holds fun i => Invoke.subscript host (calls i) o key := by
  have part (id : NodeId) (selector : Selector) : A.Holds fun i => (do nodeValue (← (calls i).child id selector)) :=
    (on.child id selector).bind fun _ => A.quiet (Quiet.nodeValue _)
  cases o with
  | node id kind =>
    cases key with
    | text name => exact part id _
    | number index => exact part id _
    | _ => exact A.quiet (Quiet.throwCause _)
  | foreign => exact A.quiet (Quiet.compute _)
  | _ => exact .pure _

end OnTree

/-! ## Sources and values -/

section Sound

variable (sound : A.Sound calls) (host : Host)
include sound

theorem env_kept (context locals : Pairs) : A.Kept fun i => Expression.env host (calls i) context locals :=
  ⟨⟨Eval.lookup ⟨locals,context,fun _ _ _ => .refuse (.undefinedName ""),fun _ _ => .refuse (.undefinedName ""),fun _ _ _ => .unending⟩,
    fun _ _ _ => rfl⟩,sound.invoke,subscript_holds sound.toOnTree host,sound.operate⟩

theorem evaluate_holds (source : Text) (locals : Pairs) : A.Holds fun i => Expression.evaluate host (calls i) source locals := by
  refine .after Quiet.getSession fun session => .after (Quiet.check _) fun e => ?_
  refine A.rethrow ((env_kept sound host session.context locals).eval [] e) fun thrown => ?_
  cases thrown with
  | fault id => exact ⟨.throw _,.throw _⟩
  | foreign message => exact ⟨Quiet.refuse _,.throwCause _⟩

omit host in
theorem locals_holds (id : NodeId) : A.Holds fun _ => Expression.locals id := by
  refine (sound.attached id).bind fun _ => A.quiet ?_
  exact Quiet.get.bind fun _ => (Quiet.nodeValue _).bind fun _ => (Quiet.nodeValue _).bind fun _ => (Quiet.nodeValue _).bind fun _ =>
    (Quiet.compute _).bind fun _ => (Quiet.compute _).bind fun _ => .pure _

theorem scalarValue_holds (id : NodeId) (raw : Literal) (override : Option Literal) :
    A.Holds fun i => Resolve.scalarValue host (calls i) id raw override := by
  refine .after (Quiet.getNode id) fun n => .checked (Quiet.throwCause _) ?_
  cases override.getD raw with
  | text t =>
    refine (sound.attached id).bind fun _ => .after Quiet.getSession fun session => ?_
    cases Resolve.classify session.settings t with
    | inl literal => exact .pure _
    | inr source =>
      refine (locals_holds sound id).bind fun locals => (evaluate_holds sound host source locals).bind fun v => ?_
      cases v with
      | object o =>
        cases o with
        | node target kind => exact sound.resolve target
        | _ => exact .pure _
      | _ => exact .pure _
  | _ => exact .pure _

omit host in
theorem pairsOf_holds (emitted : List (Text × Text)) (pairs : Pairs) (entries : List NodeId) :
    A.Holds fun i => Resolve.pairsOf (calls i) emitted pairs entries := by
  induction entries generalizing emitted pairs with
  | nil => exact .pure _
  | cons entry rest ih =>
    refine (entryValue_holds sound.settle entry).bind fun value => .after Quiet.get fun s => .ite (ih _ _) ?_
    dsimp only
    cases emitted.lookup (s.exposedKey entry) with
    | none => exact (sound.resolve value).bind fun _ => ih _ _
    | some previous => exact .after (Quiet.throwCause _) fun _ => (sound.resolve value).bind fun _ => ih _ _

theorem computeValue_holds (id : NodeId) : A.Holds fun i => Resolve.computeValue host (calls i) id := by
  refine .after (Quiet.getNode id) fun n => ?_
  cases n.body with
  | scalar raw override => exact scalarValue_holds sound host id raw override
  | sequence items =>
    exact .after Quiet.get fun s => (Holds.mapM _ fun item => sound.resolve item).bind fun _ => A.quiet (Quiet.compute _)
  | mapping entries => exact (pairsOf_holds sound [] [] entries).bind fun _ => A.quiet (Quiet.compute _)
  | entry =>
    exact .after Quiet.get fun s => (entryValue_holds sound.settle id).bind fun value => (sound.resolve value).bind fun _ =>
      A.quiet (Quiet.compute _)

theorem finish_holds (id : NodeId) (computed : Value) : A.Holds fun i => Resolve.finish host (calls i) id computed := by
  refine .after (Quiet.getNode id) fun n => (Holds.foldlM n.transforms (fun v transform => ?_) computed).bind fun v => ?_
  · cases transform with
    | call function => exact sound.invoke function [v] []
    | among values => exact .after (Judgement.checkAmong_quiet values v) fun _ => .pure _
    | host name => exact A.quiet (Quiet.compute _)
  · refine .after (Quiet.getNode id) fun n => A.quiet ?_
    cases n.types with
    | none => exact .pure _
    | some types => exact Judgement.Holds.checked (Quiet.throwCause _) (.pure _)

/-- Of whatever computes the value of a node an accord holds if it holds of the work that this refers to. -/
theorem value_holds (id : NodeId) : A.Holds fun i => Resolve.value host (calls i) id :=
  (sound.settle id).bind fun _ => .after (Quiet.current id) fun now => .ite
    ((computeValue_holds sound host id).bind fun v => finish_holds sound host id v) (sound.resolve now)

end Sound
end Accord
end ConfTree
