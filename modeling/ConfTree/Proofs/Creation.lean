import ConfTree.Proofs.Readings
import ConfTree.Proofs.WellFormed.Upkeep

/-!
Making a configuration. Overrides are read while there is no node, which leaves the session as it is (`Discipline.blank`);
then the tree is built and made that of the session (`createWith_inv`, `createWith_of_build`).
-/
namespace ConfTree

open StoreM

variable {host : Host} {calls : Calls} {depth : Nat} {s t : Store}

/-! ## Before there is a tree -/

/-- The discipline of a store without nodes, whose session stays as it is. -/
def Discipline.blank : Discipline where
  Fits s := s.nodes.size = 0
  Reaches s t := t.session = s.session
  refl _ := rfl
  trans _ _ _ first second := second.trans first
  alike _ _ alike fits := ⟨by rw [alike.nodes]; exact fits,alike.session⟩

namespace Blank

open Discipline

theorem resolve_keeps (resolves : ∀ id, blank.Keeps (calls.resolve id)) (id : NodeId) : blank.Keeps (Resolve.resolve host calls id) := by
  rw [Resolve.resolve_eq]
  intro s
  refine KeepsAt.after current_run ?_
  split
  · exact resolves _ s
  · refine KeepsAt.after getNode_run ?_
    split
    · exact Keeps.pure _ s
    · exact Keeps.throw _ s
    · exact (Judgement.reportCycle_holds (fun id => (Still.requireSession id).keeps) id : blank.keeping.Holds _) s
    · refine ((Still.requireSession id).keeps s).followed fun _ t run _ r u fits => ?_
      have known := Upkeep.attached run
      rw [show t.nodes.size = 0 from fits] at known
      cases known

theorem settle_keeps (id : NodeId) : blank.Keeps (Resolve.settle calls id) := by
  intro s r t fits run
  have rest := (Runs.bind_iff getNode_run).mp run
  rw [Store.node_of_size_le (Nat.le_of_eq fits |>.trans (Nat.zero_le _))] at rest
  exact Keeps.pure () s r t fits rest

/-- Expressions can be evaluated before there is a tree, and make none. -/
theorem ofDepth (host : Host) (depth : Nat) : blank.keeping.Sound (Calls.ofDepth host depth) := by
  have attached (id : NodeId) : blank.keeping.Holds (requireSession id) := (Still.requireSession id).keeps
  induction depth with
  | zero => exact Sound.exhausted.judged
  | succ depth ih =>
    exact ⟨⟨resolve_keeps ih.resolve,settle_keeps,Judgement.settled_holds ih.toOnTree,Judgement.child_holds ih.toOnTree⟩,attached,
      fun o args keyword => Judgement.object_holds ih.toOnTree host o args keyword fun _ f _ => (functions_still host f args keyword).keeps,
      operate_keeps⟩

/-- Reading overrides makes no nodes and leaves the session as it is. -/
theorem ofInputs {options : Options} {overrides : List Override}
    (accepted : Runs (Overrides.ofInputs host (Calls.ofDepth host depth) options.overrides) s (.ok overrides) t) (empty : s.nodes.size = 0) :
    t.nodes.size = 0 ∧ t.session = s.session :=
  Judgement.ofInputs_holds (ofDepth host depth) host options.overrides s _ t empty accepted

end Blank

/-! ## The tree of the session -/

/-- The store with a tree as that of the session. -/
def Store.rootedAt (s : Store) (r : NodeId) : Store :=
  (s.update r fun n => { n with isBound := true }).inSession fun session => { session with root := r }

theorem construct_ok {α : Type} {r : Except ConstructionIssue α} {v : α} (run : Runs (Configuration.construct r) s (.ok v) t) :
    r = .ok v ∧ t = s := by
  cases r with
  | ok w =>
    obtain ⟨same,rfl⟩ := Runs.pure_iff.mp run
    exact ⟨congrArg Except.ok (Except.ok.inj same).symm,rfl⟩
  | error issue => exact absurd run throwCause_fails

/-- A configuration is made by reading overrides, building the tree and making it that of the session. -/
theorem createWith_inv {calls : Calls} {options : Options} {raw : Value}
    (run : Runs (Configuration.createWith host calls options raw) s (.ok ()) t) : ∃ settings context overrides root u v,
      Configuration.bindAll options.registry options.context = .ok context ∧
      Runs (Overrides.ofInputs host calls options.overrides) (s.inSession fun session => { session with settings, context }) (.ok overrides) u ∧
      Runs (build raw .empty) u (.ok root) v ∧
      t = (v.inSession fun session => { session with overrides, loader := options.loader }).rootedAt root := by
  obtain ⟨settings,s₁,first,rest⟩ := Runs.bind_ok run
  obtain ⟨context,s₂,second,rest'⟩ := Runs.bind_ok rest
  obtain ⟨_,rfl⟩ := construct_ok first
  obtain ⟨named,rfl⟩ := construct_ok second
  have given := (Runs.bind_iff modifySession_run).mp rest'
  obtain ⟨overrides,u,accepted,built⟩ := Runs.bind_ok given
  obtain ⟨root,v,planted,bound⟩ := Runs.bind_ok built
  have last := (Runs.bind_iff modifyNode_run).mp ((Runs.bind_iff modifySession_run).mp bound)
  obtain ⟨_,rfl⟩ := Runs.unique modifySession_run last
  exact ⟨settings,context,overrides,root,u,v,named,accepted,planted,rfl⟩

theorem construct_run {α : Type} {r : Except ConstructionIssue α} {v : α} (accepted : r = .ok v) :
    Runs (Configuration.construct r) s (.ok v) s := by
  rw [accepted]
  exact Runs.ok _ _

/-- A configuration can be made when its settings, names and overrides are accepted and its tree can be built. -/
theorem createWith_of_build {options : Options} {raw : Value} {settings : Settings} {context : Registry} {overrides : List Override}
    {next : Identity} {root : NodeId} (settings_accepted : Settings.ofOptions options.settings = .ok settings)
    (context_accepted : Configuration.bindAll options.registry options.context = .ok context)
    (accepted : Runs (Overrides.ofInputs host calls options.overrides)
      ((Store.empty next).inSession fun session => { session with settings, context }) (.ok overrides) s)
    (built : Runs (build raw .empty) s (.ok root) t) : Runs (Configuration.createWith host calls options raw) (Store.empty next) (.ok ())
      ((t.inSession fun session => { session with overrides, loader := options.loader }).rootedAt root) :=
  (construct_run settings_accepted).bind ((construct_run context_accepted).bind (modifySession_run.bind
    (accepted.bind (built.bind (modifySession_run.bind (modifyNode_run.bind modifySession_run))))))

end ConfTree
