import ConfTree.Proofs.Discipline.Editing
import ConfTree.Proofs.Location
import ConfTree.Proofs.Readings

/-!
Progress goes one way. A value that was computed, or failed to be, stays what it was; so does the outcome of
an entry's modifiers; and what is being worked on stays so until that work ends. When some work is over, no
node is left on the list of those being worked on that was not there before (`Orderly.ofDepth`), whatever the
work threw.
-/
namespace ConfTree

open StoreM

variable {α : Type} {s t u : Store}

/-- The second state may follow the first one: what was begun elsewhere stays as it is. -/
def Progress.Leads (p q : Progress α) : Prop := p = .pending ∨ q = p

namespace Progress.Leads

theorem refl (p : Progress α) : p.Leads p := .inr rfl

theorem trans {p q r : Progress α} (first : p.Leads q) (second : q.Leads r) : p.Leads r := by
  rcases first with pending | rfl
  · exact .inl pending
  · exact second

end Progress.Leads

/-- What nodes had come to they have come to still, and no node is gone or of another kind. -/
structure Store.Forward (s t : Store) : Prop where
  grows : s.nodes.size ≤ t.nodes.size
  kind : ∀ id, id < s.nodes.size → t.kind id = s.kind id
  resolution : ∀ id : Nat, (s.node id).resolution.Leads (t.node id).resolution
  modification : ∀ (id : Nat) (p : Progress Unit), (s.node id).body.modification? = some p →
    ∃ q, (t.node id).body.modification? = some q ∧ p.Leads q

namespace Store.Forward

theorem of_nodes (nodes : t.nodes = s.nodes) : s.Forward t := by
  have same (id : Nat) : t.node id = s.node id := by rw [Store.node,Store.node,nodes]
  exact {
    grows := Nat.le_of_eq (congrArg Array.size nodes.symm)
    kind := fun id _ => by rw [Store.kind,Store.kind,same id]
    resolution := fun id => by rw [same id]; exact .refl _
    modification := fun id p was => ⟨p,by rw [same id]; exact was,.refl p⟩ }

theorem refl (s : Store) : s.Forward s := of_nodes rfl

theorem trans (first : s.Forward t) (second : t.Forward u) : s.Forward u where
  grows := Nat.le_trans first.grows second.grows
  kind id old := (second.kind id (Nat.lt_of_lt_of_le old first.grows)).trans (first.kind id old)
  resolution id := (first.resolution id).trans (second.resolution id)
  modification id p was := by
    obtain ⟨q,there,leads⟩ := first.modification id p was
    obtain ⟨q',here,leads'⟩ := second.modification id q there
    exact ⟨q',here,leads.trans leads'⟩

/-- A node that was changed, if what it had come to is what it comes to. -/
theorem update {id : Nat} {f : Node → Node} (kind : (f (s.node id)).kind = (s.node id).kind)
    (resolution : (s.node id).resolution.Leads (f (s.node id)).resolution)
    (modification : ∀ p, (s.node id).body.modification? = some p →
      ∃ q, (f (s.node id)).body.modification? = some q ∧ p.Leads q) : s.Forward (s.update id f) where
  grows := by simp
  kind other _ := by
    rw [Store.kind,Store.kind,node_update]
    split
    · next same => rw [same.1]; exact kind
    · rfl
  resolution other := by
    rw [node_update]
    split
    · next same => rw [same.1]; exact resolution
    · exact .refl _
  modification other p was := by
    rw [node_update]
    split
    · next same => rw [same.1] at was ⊢; exact modification p was
    · exact ⟨p,was,.refl p⟩

/-- A node changed otherwise than in its progress. -/
theorem quiet {id : Nat} {f : Node → Node} (kind : (f (s.node id)).kind = (s.node id).kind)
    (resolution : (f (s.node id)).resolution = (s.node id).resolution)
    (modification : (f (s.node id)).body.modification? = (s.node id).body.modification?) : s.Forward (s.update id f) :=
  update kind (.inr resolution) fun p was => ⟨p,modification.trans was,.refl p⟩

theorem push (n : Node) : s.Forward (s.push n) where
  grows := by simp
  kind id old := by rw [Store.kind,Store.kind,node_push_old old]
  resolution id := by
    by_cases old : id < s.nodes.size
    · exact .inr (by rw [node_push_old old])
    · exact .inl (by rw [node_of_size_le (by omega)]; rfl)
  modification id p was := by
    by_cases old : id < s.nodes.size
    · exact ⟨p,by rw [node_push_old old]; exact was,.refl p⟩
    · rw [node_of_size_le (by omega)] at was
      cases was

/-- Work within which one node only was begun and ended. -/
theorem around {id : Nat} {w : Store} (before : t.nodes.size = s.nodes.size ∧ ∀ other : Nat, other ≠ id → t.node other = s.node other)
    (inner : t.Forward u) (after : w.nodes.size = u.nodes.size ∧ ∀ other : Nat, other ≠ id → w.node other = u.node other)
    (kind : id < s.nodes.size → (w.node id).kind = (s.node id).kind)
    (resolution : (s.node id).resolution.Leads (w.node id).resolution)
    (modification : ∀ p, (s.node id).body.modification? = some p → ∃ q, (w.node id).body.modification? = some q ∧ p.Leads q) :
    s.Forward w where
  grows := by rw [after.1,← before.1]; exact inner.grows
  kind other old := by
    by_cases same : other = id
    · rw [Store.kind,Store.kind,same]
      exact kind (same ▸ old)
    · have there := inner.kind other (by rw [before.1]; exact old)
      rw [Store.kind,Store.kind] at there ⊢
      rw [after.2 other same,there,before.2 other same]
  resolution other := by
    by_cases same : other = id
    · exact same ▸ resolution
    · rw [after.2 other same,← before.2 other same]
      exact inner.resolution other
  modification other p was := by
    by_cases same : other = id
    · subst same
      exact modification p was
    · rw [after.2 other same]
      exact inner.modification other p (by rw [before.2 other same]; exact was)

end Store.Forward

/-- The discipline of going forward only; settings and the note that unused overrides were looked for are left
alone, and so is the list of nodes being worked on. -/
def Discipline.orderly : Discipline where
  Fits _ := True
  Reaches s t := s.Forward t ∧ t.session.busy = s.session.busy ∧ t.session.settings = s.session.settings ∧
    t.session.isReported = s.session.isReported
  refl s := ⟨.refl s,rfl,rfl,rfl⟩
  trans _ _ _ first second := ⟨first.1.trans second.1,second.2.1.trans first.2.1,second.2.2.1.trans first.2.2.1,
    second.2.2.2.trans first.2.2.2⟩
  alike _ _ alike _ := ⟨trivial,.of_nodes alike.nodes,by rw [alike.session],by rw [alike.session],by rw [alike.session]⟩

/-- The action goes forward only. -/
abbrev Orderly (a : StoreM α) : Prop := Discipline.orderly.Keeps a

namespace Orderly

open Discipline

/-! ## Writing -/

theorem modifyNode {id : NodeId} {f : Node → Node} (body : ∀ n, (f n).body = n.body)
    (resolution : ∀ n, (f n).resolution = n.resolution) : Orderly (modifyNode id f) := by
  intro s r t _ run
  obtain ⟨_,rfl⟩ := Runs.unique modifyNode_run run
  exact ⟨trivial,.quiet (congrArg Body.kind (body _)) (resolution _) (congrArg Body.modification? (body _)),rfl,rfl,rfl⟩

/-- Writing a body with the kind and the progress of the one that was read. -/
theorem modifyBodyAt {id : NodeId} {b : Body} (kind : b.kind = (s.node id).body.kind)
    (same : b.modification? = (s.node id).body.modification?) : orderly.KeepsAt s (modifyBody id fun _ => b) := by
  intro r t _ run
  obtain ⟨_,rfl⟩ := Runs.unique modifyNode_run run
  exact ⟨trivial,.quiet kind rfl same,rfl,rfl,rfl⟩

theorem newNode (n : Node) : Orderly (newNode n) := by
  intro s r t _ run
  obtain ⟨_,rfl⟩ := Runs.unique newNode_run run
  exact ⟨trivial,.push n,rfl,rfl,rfl⟩

theorem modifySession {f : Session → Session} (busy : ∀ session, (f session).busy = session.busy)
    (settings : ∀ session, (f session).settings = session.settings)
    (reported : ∀ session, (f session).isReported = session.isReported) : Orderly (modifySession f) := by
  intro s r t _ run
  obtain ⟨_,rfl⟩ := Runs.unique modifySession_run run
  exact ⟨trivial,.of_nodes rfl,busy _,settings _,reported _⟩

/-- Building and replacing go forward only. -/
theorem edited : orderly.Edited fun _ => True where
  marked _ _ body resolution _ := modifyNode body resolution
  swapped s id b same := modifyBodyAt (by cases b <;> cases body : (s.node id).body <;> rw [body] at same <;> cases same <;> rfl)
    (by cases b <;> cases body : (s.node id).body <;> rw [body] at same <;> cases same <;> rfl)
  rooted _ := modifySession (fun _ => rfl) (fun _ => rfl) fun _ => rfl
  grown _ _ := newNode _
  entered _ _ _ := newNode _

/-! ## What is begun once -/

/-- Work on a node leaves the session as it was, but for overrides and units. -/
theorem session_around {s' : Store} {id : NodeId} {f : Node → Node} (same : s.Alike s')
    (inner : orderly.Reaches ((s'.update id f).entered id) u) (session : t.session = u.session) :
    (t.left id).session.busy = s.session.busy ∧ (t.left id).session.settings = s.session.settings ∧
      (t.left id).session.isReported = s.session.isReported := by
  obtain ⟨_,busy,settings,reported⟩ := inner
  rw [Store.left,Store.session_inSession,session,← same.session]
  refine ⟨?_,settings,reported⟩
  rw [busy]
  exact Resolve.eraseLast_entered _ _

theorem computing (id : NodeId) {value : StoreM Value} (pending : (s.node id).resolution = .pending) (keeps : Orderly value) :
    orderly.KeepsAt s (Resolve.computing id value) := by
  intro r t _ run
  rcases Resolve.computing_inv run with ⟨_,refused⟩ | ⟨s',u,same,_,ran,outcome⟩
  · exact orderly.alike s t refused trivial
  have inner := (keeps _ _ u trivial ran).2
  have body : ((s'.update id (Resolve.computed .active)).node id).body = (s.node id).body := by
    rw [Store.node_update,same.node]
    split <;> rfl
  have finished {w : Store} (changed : Store.Changed (fun n n' => n'.body = n.body) id u w) : orderly.Reaches s (w.left id) := by
    refine ⟨.around ⟨?_,fun other apart => ?_⟩ inner.1 ⟨changed.size,changed.others⟩ ?_ (.inl pending) fun p was => ?_,
      session_around same inner changed.session⟩
    · exact Store.size_update.trans (congrArg Array.size same.nodes)
    · rw [Store.node_entered,Store.node_update_ne apart,same.node]
    · refine fun old => (congrArg Body.kind changed.here).trans ((inner.1.kind id ?_).trans (congrArg Body.kind body))
      exact Nat.lt_of_lt_of_eq old ((congrArg Array.size same.nodes).symm.trans Store.size_update.symm)
    · rw [Store.node_left,changed.here]
      exact inner.1.modification id p (by rw [Store.node_entered,body]; exact was)
  refine ⟨trivial,?_⟩
  rcases outcome with ⟨v,_,_,rfl⟩ | ⟨e,w,_,fails,rfl⟩
  · exact finished (Store.Changed.update (C := fun n n' => n'.body = n.body) (fun _ => rfl) fun _ => rfl)
  · exact finished (fails.changed (fun _ => rfl) (fun _ _ _ first second => second.trans first) fun _ _ => rfl)

/-- The values of both nodes have come equally far, and what is an entry stays one. -/
structure SameValue (n n' : Node) : Prop where
  kind : n'.kind = n.kind
  resolution : n'.resolution = n.resolution
  modification : ∀ p, n.body.modification? = some p → ∃ q, n'.body.modification? = some q

namespace SameValue

theorem refl (n : Node) : SameValue n n := ⟨rfl,rfl,fun p was => ⟨p,was⟩⟩

theorem trans (n n' n'' : Node) (first : SameValue n n') (second : SameValue n' n'') : SameValue n n'' where
  kind := second.kind.trans first.kind
  resolution := second.resolution.trans first.resolution
  modification p was := by
    obtain ⟨q,there⟩ := first.modification p was
    exact second.modification q there

theorem modified (state : Progress Unit) (n : Node) : SameValue n (Resolve.modified state n) :=
  ⟨Resolve.modified_kind state n,rfl,fun _ was => ⟨state,Resolve.modified_modification was⟩⟩

end SameValue

theorem modifying (id : NodeId) {declare : StoreM Bool} (pending : (s.node id).body.modification? = some .pending)
    (keeps : Orderly declare) : orderly.KeepsAt s (Resolve.modifying id declare) := by
  intro r t _ run
  rcases Resolve.modifying_inv run with ⟨_,refused⟩ | ⟨s',u,same,_,ran,outcome⟩
  · exact orderly.alike s t refused trivial
  have inner := (keeps _ _ u trivial ran).2
  have here : ((s'.update id (Resolve.modified .active)).node id) = Resolve.modified .active (s.node id) := by
    rw [Store.node_update_self (by rw [same.nodes]; exact Store.old_of_modification pending),same.node]
  obtain ⟨_,entry,_⟩ := inner.1.modification id .active
    (by rw [Store.node_entered,here]; exact Resolve.modified_modification pending)
  have finished {w : Store} (changed : Store.Changed SameValue id u w) : orderly.Reaches s (w.left id) := by
    refine ⟨.around ⟨?_,fun other apart => ?_⟩ inner.1 ⟨changed.size,changed.others⟩ ?_ ?_ fun p was => ?_,
      session_around same inner changed.session⟩
    · exact Store.size_update.trans (congrArg Array.size same.nodes)
    · rw [Store.node_entered,Store.node_update_ne apart,same.node]
    · intro old
      have kept := inner.1.kind id (Nat.lt_of_lt_of_eq old ((congrArg Array.size same.nodes).symm.trans Store.size_update.symm))
      rw [Store.kind,Store.kind,Store.node_entered,here,Resolve.modified_kind] at kept
      rw [Store.node_left,changed.here.kind,kept]
    · rw [Store.node_left,changed.here.resolution]
      have leads := inner.1.resolution id
      rwa [Store.node_entered,here] at leads
    · obtain ⟨q,there⟩ := changed.here.modification _ entry
      rw [pending] at was
      exact ⟨q,there,.inl (Option.some.inj was).symm⟩
  have ended : Store.Changed SameValue id u (u.update id (Resolve.modified (.done ()))) := .update .refl (.modified _)
  refine ⟨trivial,?_⟩
  rcases outcome with rfl | ⟨e,v,w,_,failing,fails,rfl⟩
  · exact finished ended
  · have changed := fails.changed SameValue.refl SameValue.trans fun _ => SameValue.modified _
    rcases failing with rfl | ⟨quiet,_⟩
    · exact finished changed
    · exact finished ((ended.trans SameValue.trans (.of_alike .refl quiet)).trans SameValue.trans changed)

theorem bearing : orderly.Bearing where
  toEdited := edited
  fits _ := trivial
  mapping _ _ id reaches kind := (reaches.1.kind id (Store.old_of_mapping kind)).trans kind
  noted _ _ _ akin := ⟨.quiet akin.kind akin.resolution akin.modification,rfl,rfl,rfl⟩
  counted _ _ := ⟨.of_nodes rfl,rfl,rfl,rfl⟩
  listed _ _ := modifySession (fun _ => rfl) (fun _ => rfl) fun _ => rfl
  computing _ id _ := computing id
  modifying _ id _ := modifying id

/-- All work on a tree goes forward only, to whatever depth. -/
theorem ofDepth (host : Host) (depth : Nat) : orderly.Sound (Calls.ofDepth host depth) := bearing.ofDepth host depth

end Orderly

/-! ## Over readings -/

/-- The discipline of going forward only, whether or not unused overrides are looked for. -/
def Discipline.forward : Discipline where
  Fits _ := True
  Reaches s t := s.Forward t ∧ t.session.busy = s.session.busy
  refl s := ⟨.refl s,rfl⟩
  trans _ _ _ first second := ⟨first.1.trans second.1,second.2.trans first.2⟩
  alike _ _ alike _ := ⟨trivial,.of_nodes alike.nodes,by rw [alike.session]⟩

theorem Orderly.forward (a : StoreM α) (keeps : Orderly a) : Discipline.forward.Keeps a := fun s r t _ run =>
  have reaches := (keeps s r t trivial run).2
  ⟨trivial,reaches.1,reaches.2.1⟩

namespace Resolve

variable {host : Host} {calls : Calls} {id : Nat} {r : Except Thrown Value} {v : Value}

/-- A node in its own place is resolved as its progress says. -/
theorem resolve_live (live : (s.node id).replacedBy = none) : Runs (resolve host calls id) s r t ↔
    Runs (match (s.node id).resolution with
      | .done v => Pure.pure v
      | .failed fault => throw (.fault fault)
      | .active => reportCycle id
      | .pending => computing id (value host calls id)) s r t := by
  rw [resolve_eq]
  refine (Runs.bind_iff current_run).trans ?_
  rw [Store.current_of_live live,if_neg (fun differ => differ rfl)]
  exact Runs.bind_iff getNode_run

theorem resolve_done (live : (s.node id).replacedBy = none) (done : (s.node id).resolution = .done v) :
    Runs (resolve host calls id) s (.ok v) s := by
  rw [resolve_live live,done]
  exact Runs.ok v s

theorem resolve_failed {fault : FaultId} (live : (s.node id).replacedBy = none) (failed : (s.node id).resolution = .failed fault) :
    Runs (resolve host calls id) s (.error (.fault fault)) s := by
  rw [resolve_live live,failed]
  exact Runs.throw_iff.mpr ⟨rfl,rfl⟩

theorem reportCycle_fails : ¬ Runs (reportCycle id : StoreM Value) s (.ok v) t := by
  intro run
  obtain ⟨_,_,_,rest⟩ := Runs.bind_ok run
  obtain ⟨_,_,_,rest⟩ := Runs.bind_ok rest
  obtain ⟨_,_,_,rest⟩ := Runs.bind_ok rest
  obtain ⟨_,_,_,rest⟩ := Runs.bind_ok rest
  obtain ⟨_,_,_,thrown⟩ := Runs.bind_ok rest
  cases (Runs.throw_iff.mp thrown).1

/-- What a node that was not begun has come to when it was resolved. -/
inductive Outcome (id : NodeId) (s t : Store) : Except Thrown Value → Prop
  | computed (v : Value) (done : (t.node id).resolution = .done v) : Outcome id s t (.ok v)
  | failed (fault : FaultId) (failed : (t.node id).resolution = .failed fault) : Outcome id s t (.error (.fault fault))
  /-- the node does not stand in the session's tree -/
  | refused (e : Thrown) (same : s.Alike t) : Outcome id s t (.error e)
  /-- the node has no name to locate a failure at -/
  | lost {u w : Store} (fault : FaultId) (e : Thrown) (active : (t.node id).resolution = .active)
      (lost : Runs (locate fault id) u (.error e) w) (left : t = w.left id) : Outcome id s t (.error e)

theorem computing_outcome {value : StoreM Value} (keeps : Orderly value) (old : id < s.nodes.size)
    (run : Runs (computing id value) s r t) : Outcome id s t r := by
  rcases computing_inv run with ⟨⟨e,rfl⟩,refused⟩ | ⟨s',u,same,_,ran,outcome⟩
  · exact .refused e refused
  have began : (s'.update id (computed .active)).node id = computed .active (s.node id) := by
    rw [Store.node_update_self (by rw [same.nodes]; exact old),same.node]
  have active : (u.node id).resolution = .active := by
    rcases (keeps _ _ u trivial ran).2.1.resolution id with never | kept
    · rw [Store.node_entered,began] at never
      cases never
    · rw [kept,Store.node_entered,began]
      rfl
  have inside : id < u.nodes.size := Store.old_of_resolution (by rw [active]; exact nofun)
  rcases outcome with ⟨v,_,rfl,rfl⟩ | ⟨e,w,rfl,fails,rfl⟩
  · refine .computed v ?_
    rw [Store.node_left,Store.node_update_self inside]
    rfl
  · cases fails with
    | @located v w fault before located =>
      have quiet := before.trans ((Quiet.locate fault id).alike located)
      refine .failed fault ?_
      rw [Store.node_left,Store.node_update_self (by rw [quiet.nodes]; exact inside)]
      rfl
    | @lost v _ _ fault before lost =>
      have quiet := before.trans ((Quiet.locate fault id).alike lost)
      refine .lost fault e ?_ lost rfl
      rw [Store.node_left,quiet.node]
      exact active

/-- A value that was given is remembered. -/
theorem resolve_remembers (sound : Discipline.orderly.Sound calls) (old : id < s.nodes.size) (live : (s.node id).replacedBy = none)
    (run : Runs (resolve host calls id) s (.ok v) t) : (t.node id).resolution = .done v := by
  rw [resolve_live live] at run
  cases resolution : (s.node id).resolution with
  | done v' =>
    rw [resolution] at run
    obtain ⟨same,rfl⟩ := Runs.pure_iff.mp run
    rw [resolution,Except.ok.inj same]
  | failed fault =>
    rw [resolution] at run
    cases (Runs.throw_iff.mp run).1
  | active =>
    rw [resolution] at run
    exact absurd run reportCycle_fails
  | pending =>
    rw [resolution] at run
    cases computing_outcome (Judgement.value_holds host sound.judged id) old run with
    | computed _ done => exact done

end Resolve

namespace Readings

variable {host : Host} {depth : Nat} {id : Nat}

/-- Whatever is read, and whatever readings throw: nothing that was computed or modified, or failed to be, is ever
undone or done again, and no node stays on the list of those being worked on. -/
theorem forward (readings : Readings (Calls.ofDepth host depth) s t) : s.Forward t ∧ t.session.busy = s.session.busy := by
  refine (readings.keeps ((Orderly.ofDepth host depth).mono Orderly.forward).judged (fun s r t _ run => ?_) trivial).2
  obtain ⟨_,rfl⟩ := Runs.unique modifySession_run run
  exact ⟨trivial,.of_nodes rfl,rfl⟩

/-- A node that has a value gives the same one after whatever readings, as long as it is in its place. -/
theorem value_again (readings : Readings (Calls.ofDepth host depth) s t) {v : Value} (done : (s.node id).resolution = .done v)
    (live : (t.node id).replacedBy = none) : Runs ((Calls.ofDepth host (depth + 1)).resolve id) t (.ok v) t := by
  refine Resolve.resolve_done live ?_
  rcases readings.forward.1.resolution id with pending | same
  · rw [done] at pending
    cases pending
  · exact same.trans done

/-- A node that failed throws the same fault after whatever readings, as long as it is in its place. -/
theorem fault_again (readings : Readings (Calls.ofDepth host depth) s t) {fault : FaultId}
    (failed : (s.node id).resolution = .failed fault) (live : (t.node id).replacedBy = none) :
    Runs ((Calls.ofDepth host (depth + 1)).resolve id) t (.error (.fault fault)) t := by
  refine Resolve.resolve_failed live ?_
  rcases readings.forward.1.resolution id with pending | same
  · rw [failed] at pending
    cases pending
  · exact same.trans failed

/-- A value that was given once is given again, whatever is read in between, as long as the node is in its place. -/
theorem value_kept (old : id < s.nodes.size) (live : (s.node id).replacedBy = none) {v : Value}
    (run : Runs ((Calls.ofDepth host (depth + 1)).resolve id) s (.ok v) t)
    (readings : Readings (Calls.ofDepth host depth) t u) (still : (u.node id).replacedBy = none) :
    Runs ((Calls.ofDepth host (depth + 1)).resolve id) u (.ok v) u :=
  readings.value_again (Resolve.resolve_remembers (Orderly.ofDepth host depth) old live run) still

end Readings
end ConfTree
