import ConfTree.Proofs.Creation
import ConfTree.Proofs.Progress
import ConfTree.Proofs.Watch

/-!
Configurations at rest. A configuration is well formed when it is made, and after whatever readings, those that
throw among them, in which no node was promoted that had been replaced, and none fused (`Watch.steady`); and
no reading leaves behind a node that is being worked on (`Store.AtRest`).
-/
namespace ConfTree

open StoreM

/-- A watch that no replaced node is promoted, and none fused. -/
def Watch.steady : Watch := fun m id s =>
  decide (id < s.nodes.size) && match m with
    | .promote => (s.node id).replacedBy.isNone
    | .fuse => false
    | _ => true

variable {host : Host} {depth : Nat} {s t u : Store}

/-- Steady work keeps trees well formed, to whatever depth. -/
theorem Upkeep.ofDepth (host : Host) (depth : Nat) : Discipline.upkeep.Sound (Calls.watched .steady host depth) := by
  induction depth with
  | zero => exact .exhausted
  | succ depth ih =>
    refine ⟨regular.resolve_step host ih,regular.settle_step ih,Discipline.settled_keeps ih,Discipline.child_keeps ih,
      regular.declaration_step host ih,fun m id s => Discipline.KeepsAt.after get_run ?_,Discipline.object_keeps ih host,
      Discipline.operate_keeps⟩
    split
    · next steady =>
      obtain ⟨old,steady⟩ := Bool.and_eq_true_iff.mp steady
      refine regular.apply_step host ih m (of_decide_eq_true old) (fun promote => ?_) fun fuse => ?_
      · rw [promote] at steady
        exact promote_keeps (Option.isNone_iff_eq_none.mp steady)
      · rw [fuse] at steady
        cases steady
    · exact Discipline.Keeps.unending s

namespace Store

/-- What holds of a configuration between readings. -/
structure AtRest (s : Store) : Prop where
  form : s.WellFormed
  rooted : (s.node s.session.root).isBound = true
  resolution : ∀ id, (s.node id).resolution ≠ .active
  modification : ∀ id, (s.node id).body.modification? ≠ some .active
  busy : s.session.busy = []

namespace AtRest

variable (rest : s.AtRest)
include rest

/-- The root is the only node that is bound, was not replaced and has no parent. -/
theorem root : s.Live s.session.root ∧ (s.node s.session.root).parent = none ∧
    ∀ id, (s.node id).isBound = true → id = s.session.root := by
  obtain ⟨_,live,top⟩ := rest.form.bound _ rest.rooted
  exact ⟨live,top,fun id bound => (rest.form.bound id bound).1⟩

/-- From the root down, what is in a place was not replaced and has as its parent what has the place, and no mapping
repeats a key. -/
theorem places {c : Nat} (reachable : Reachable s c) :
    (∀ id ∈ s.below c, s.Live id ∧ (s.node id).parent = some c) ∧ (s.keys c).Nodup :=
  ⟨(rest.form.seats_reachable rest.rooted reachable).2,rest.form.keys c⟩

end AtRest

theorem wellFormed_of_empty (empty : s.nodes.size = 0) : s.WellFormed := by
  have node (id : Nat) : s.node id = default := node_of_size_le (empty ▸ Nat.zero_le id)
  have up (x y : Nat) : ¬ s.Up x y := fun up => by
    rw [Up,node] at up
    rcases up with gone | gone <;> cases gone
  have below (c id : Nat) : id ∉ s.below c := fun place => by
    rw [Store.below,node] at place
    cases place
  have entries (m e : Nat) : e ∉ s.entries m := fun member => below m e (mem_entries.mp member).2
  exact {
    ends := fun id => .intro id fun y up' => absurd up' (up id y)
    known := fun x y up' => absurd up' (up x y)
    listed := fun c id place => absurd place (below c id)
    held := fun id p _ parent => absurd (.inr parent) (up id p)
    seats := fun c id place => absurd place (below c id)
    distinct := fun c => List.eq_nil_iff_forall_not_mem.mpr (below c) ▸ List.nodup_nil
    kinds := fun m e member => absurd member (entries m e)
    keys := fun m => by
      rw [Store.keys,List.eq_nil_iff_forall_not_mem.mpr (entries m)]
      exact List.nodup_nil
    pinned := fun e m parent => absurd (.inr parent) (up e m)
    original := fun n q m replaced => absurd (.inl replaced) (up n q)
    bound := fun id bound => by
      rw [node] at bound
      cases bound }

theorem rootedAt_shaped (s : Store) (r : NodeId) : s.Shaped (s.rootedAt r) := ⟨size_update,fun id => by
  rw [Store.rootedAt,node_inSession,node_update]
  split
  · exact ⟨rfl,rfl,rfl,rfl,rfl⟩
  · exact ⟨rfl,rfl,rfl,rfl,rfl⟩⟩

/-- Where no node is bound, a tree that stands alone can be made that of the session. -/
theorem WellFormed.rootedAt (form : s.WellFormed) {r : Nat} (loose : s.Loose r) (free : (s.node s.session.root).isBound = false) :
    (s.rootedAt r).WellFormed := by
  refine form.shaped (rootedAt_shaped s r) fun id bound => ?_
  by_cases same : id = r
  · subst same
    exact ⟨rfl,loose.live,loose.top⟩
  · rw [Store.rootedAt,node_inSession,node_update_ne same] at bound
    rw [← (form.bound id bound).1,bound] at free
    cases free

end Store

/-! ## Creation -/

/-- A configuration is at rest when it was made. -/
theorem createWith_atRest {options : Options} {raw : Value} {next : Identity}
    (run : Runs (Configuration.createWith host (Calls.watched .steady host depth) options raw) (Store.empty next) (.ok ()) t) :
    t.AtRest := by
  obtain ⟨settings,context,overrides,root,u,v,_,given,built,rfl⟩ := createWith_inv run
  obtain ⟨s,blank⟩ : ∃ s, s = (Store.empty next).inSession fun session => { session with settings, context } := ⟨_,rfl⟩
  rw [← blank] at given
  have none_yet (id : Nat) : s.node id = default := Store.node_of_size_le (by rw [blank]; exact Nat.zero_le id)
  obtain ⟨form,kept⟩ := (Judgement.ofInputs_holds (Upkeep.ofDepth host depth).judged host options.overrides : Discipline.upkeep.Keeps _) s _ u
    (Store.wellFormed_of_empty (by rw [blank]; rfl)) given
  rcases Upkeep.build_makes raw .empty _ v form built with ⟨⟨_,impossible⟩,_⟩ | ⟨_,same,sprouts⟩
  · cases impossible
  obtain rfl := Except.ok.inj same
  obtain ⟨form',kept'⟩ := Upkeep.inSession (f := fun session => { session with overrides, loader := options.loader }) sprouts.form rfl
  obtain ⟨w,w_eq⟩ : ∃ w, w = v.inSession fun session => { session with overrides, loader := options.loader } := ⟨_,rfl⟩
  rw [← w_eq] at form' kept' ⊢
  have since := (kept.trans sprouts.grows.kept).trans kept'
  have loose : w.Loose root := by
    rw [w_eq]
    exact (sprouts.loose root (List.mem_singleton.mpr rfl)).1.linked (.inSession rfl)
  have free : (w.node w.session.root).isBound = false := by
    rw [since.rooted,none_yet]
    rfl
  have same (id : Nat) : ((w.rootedAt root).node id).resolution = (w.node id).resolution ∧
      ((w.rootedAt root).node id).body = (w.node id).body := by
    rw [Store.rootedAt,Store.node_inSession,Store.node_update]
    split <;> exact ⟨rfl,rfl⟩
  refine ⟨form'.rootedAt loose free,?rooted,fun id active => ?resolution,fun id active => ?modification,?busy⟩
  case rooted =>
    rw [Store.rootedAt,Store.node_inSession]
    exact congrArg Node.isBound (Store.node_update_self loose.known)
  case resolution =>
    rw [(same id).1] at active
    have before := since.resolution id active
    rw [none_yet] at before
    cases before
  case modification =>
    rw [(same id).2] at active
    have before := since.modification id active
    rw [none_yet] at before
    cases before
  case busy =>
    have orderly := (Orderly.ofDepth host depth).of_below (Calls.watched_below .steady host depth)
    have busy := (Judgement.ofInputs_holds orderly.judged host options.overrides s _ u trivial given).2.2.1
    have busy' := (Orderly.edited.build (fun c _ => c.heads_any) u _ v trivial built).2.2.1
    rw [w_eq]
    exact (busy'.trans busy).trans (by rw [blank]; rfl)

/-! ## Readings -/

/-- A configuration at rest is at rest again after whatever steady readings. -/
theorem Readings.atRest (readings : Readings (Calls.watched .steady host depth) s t) (rest : s.AtRest) : t.AtRest := by
  obtain ⟨form,kept⟩ := readings.keeps (Upkeep.ofDepth host depth).judged (fun s r t form run => by
    obtain ⟨_,rfl⟩ := Runs.unique modifySession_run run
    exact Upkeep.inSession form rfl) rest.form
  exact {
    form
    rooted := kept.rooted.trans rest.rooted
    resolution := fun id active => rest.resolution id (kept.resolution id active)
    modification := fun id active => rest.modification id (kept.modification id active)
    busy := (readings.of_below (Calls.watched_below .steady host depth)).forward.2.trans rest.busy }

/-- A steady configuration is a configuration, and at rest after whatever readings. -/
theorem configuration_atRest {options : Options} {raw : Value} {next : Identity}
    (create : Runs (Configuration.createWith host (Calls.watched .steady host depth) options raw) (Store.empty next) (.ok ()) s)
    (readings : Readings (Calls.watched .steady host depth) s t) :
    Runs (Configuration.createWith host (Calls.ofDepth host depth) options raw) (Store.empty next) (.ok ()) s ∧
      Readings (Calls.ofDepth host depth) s t ∧ t.AtRest :=
  have below := Calls.watched_below .steady host depth
  ⟨Configuration.createWith_below below host options raw _ _ _ create,readings.of_below below,readings.atRest (createWith_atRest create)⟩

/-- A value that is promoted as its entry is first modified is steady. -/
example : ((do
    Configuration.createWith (Host.bare [] "") (Calls.watched .steady (Host.bare [] "") 12)
      ⟨[],[],Registry.standard 0,none,.undefined⟩ (.mapping 1 [("a",.mapping 2 [("b::promote",.bool true)])])
    discard (Configuration.resolveWith (Calls.watched .steady (Host.bare [] "") 12)) : StoreM Unit)
    (Store.empty 3)).any (fun p => p.1.isOk) = true := by decide +kernel

end ConfTree
