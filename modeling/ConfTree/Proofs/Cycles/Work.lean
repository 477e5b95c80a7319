import ConfTree.Proofs.Cycles.Course
import ConfTree.Proofs.Termination.Configuration

/-!
The account of attended work on a tree. Where all content is typed, settling a node demands no value, and resolving a
node demands what its computation demands, with the node at the end of the path; so attended work gives an account of
itself to whatever depth, whichever computations are under way (`Calls.attended_sound`).
-/
namespace ConfTree

open StoreM

variable {α : Type} {host : Host} {b : Bounds} {n depth : Nat} {path : List NodeId} {id : NodeId} {log : List Event} {s t u : Store}

namespace Account

variable {a : (Event → Prop) → StoreM α} {r : Except Thrown α}

/-- An event comes before all that follows from attending to it. -/
theorem attending (account : Account b n path a s r t log) (underway : s.Underway b n path) {aim : Aim} {id : NodeId}
    (placed : aim = .value → s.current id = id) (answer : aim = .value → ∀ v, r = .ok v → t.Resolved id) :
    Account b n path (fun attend => ConfTree.attending attend (⟨aim,path,id,·⟩) (a attend)) s r t (⟨aim,path,id,s⟩ :: log) where
  records := account.records.attending fun s => ⟨aim,path,id,s⟩
  course := (Course.event underway placed).trans (fun x member => (underway.working x).mpr member) account.course
  affords := account.affords
  typed := account.typed
  replies v given x y last demanded := by
    rcases Demanded.cons.mp demanded with demanded | demanded
    · obtain ⟨_,value,_,rfl⟩ := Demanded.single demanded
      exact answer value v given
    · exact account.replies v given x y last demanded

/-- What demands nothing, whatever it does to the store. -/
theorem of_undemanding {a : StoreM α} (run : Runs a s r t) (forward : s.Forward t) (kept : s.Kept t)
    (busy : t.session.busy = s.session.busy) (affords : t.Affords b n) (typed : t.Typed) : Account b n path (fun _ => a) s r t [] where
  records := .of_same (fun _ => rfl) run
  course := .of_undemanding forward kept busy (List.forall_mem_nil _) (List.forall_mem_nil _) (List.forall_mem_nil _)
  affords := affords
  typed := typed
  replies _ _ _ _ _ demanded := absurd demanded (Demanded.of_settlements (List.forall_mem_nil _))

end Account

/-! ## First computations -/

namespace Records

variable {value : (Event → Prop) → StoreM Value} {r result : Except Thrown Value}

/-- The computation of a node has the events of that of its value. -/
theorem computing (attached : Runs (requireSession id) s (.ok ()) s)
    (records : Records value ((s.update id (Resolve.computed .active)).entered id) result u log)
    (run : Runs (Resolve.computing id (value fun _ => True)) s r t) : Records (fun attend => Resolve.computing id (value attend)) s r t log where
  ends attend met := by
    have same := (records.ends attend met).trans (records.ends (fun _ => True) fun _ _ => trivial).symm
    exact (Resolve.computing_congr same).trans run
  stops attend missed := (Resolve.computing_congr (records.stops attend missed)).trans (Resolve.computing_unending attached)

end Records

/-- A node is being computed once its computation was begun. -/
theorem Store.Underway.computing (underway : s.Underway b n path) (old : id < s.nodes.size) (pending : (s.node id).resolution = .pending) :
    ((s.update id (Resolve.computed .active)).entered id).Underway b n (path ++ [id]) where
  affords := ((Store.Eased.update (Node.Eased.computed (by nofun) _)).trans .busy).affords underway.affords
  typed := (underway.typed.update (underway.typed.bodies id)).entered id
  busy := congrArg (· ++ [id]) underway.busy
  working x := by
    rw [Store.node_entered,List.mem_append,List.mem_singleton,← underway.working x]
    by_cases here : x = id
    · subst here
      rw [Store.node_update_self old]
      exact ⟨fun _ => .inr rfl,fun _ => rfl⟩
    · rw [Store.node_update_ne here]
      exact ⟨.inl,fun found => found.resolve_right here⟩
  idle x := by
    rw [Store.node_entered,Store.node_update]
    split <;> exact underway.idle x
  distinct := by
    refine List.nodup_append.mpr ⟨underway.distinct,List.nodup_singleton id,fun x member y last same => ?_⟩
    obtain rfl := List.mem_singleton.mp last
    have active := (underway.working x).mpr member
    rw [same,pending] at active
    cases active

/-- Further nodes on the path only demand something within a computation. -/
theorem Course.apart (course : Course (path ++ [id]) s log t) {x y : NodeId} (demanded : Demanded log x y) : x ∉ path := by
  obtain ⟨e,member,_,last,_⟩ := demanded
  obtain ⟨rest,same⟩ := course.within e member
  have distinct := (course.sound e member).distinct
  rw [← same,List.append_assoc] at distinct last
  rw [List.getLast?_append_of_ne_nil _ (by simp)] at last
  exact fun before => (List.nodup_append.mp distinct).2.2 x before x (List.mem_of_getLast? last) rfl

/-- How a computation ends: with the value that was computed, or with a failure. -/
theorem Resolve.computing_ended {value : StoreM Value} {r : Except Thrown Value} (attached : Runs (requireSession id) s (.ok ()) s)
    (form : ∀ result u, Runs value ((s.update id (computed .active)).entered id) result u → u.WellFormed)
    (run : Runs (computing id value) s r t) : ∃ u result w state, Runs value ((s.update id (computed .active)).entered id) result u ∧
      u.Alike w ∧ t = (w.update id (computed state)).left id ∧
      ((∃ v, state = .done v ∧ result = .ok v) ∨ ∃ fault e, state = .failed fault ∧ r = .error e) := by
  obtain ⟨u,result,ran,⟨v,rfl,_,rfl⟩ | ⟨e,w,rfl,fails,rfl⟩⟩ := computing_attached attached run
  · exact ⟨u,_,u,_,ran,.refl u,rfl,.inl ⟨v,rfl,rfl⟩⟩
  · obtain ⟨w,fault,alike,rfl⟩ := Upkeep.fails_noted (form _ u ran) fails
    exact ⟨u,_,w,_,ran,alike,rfl,.inr ⟨fault,e,rfl,rfl⟩⟩

/-- The account of a first computation. -/
theorem Account.of_computing {value : (Event → Prop) → StoreM Value} {r : Except Thrown Value} (underway : s.Underway b n path)
    (placed : s.current id = id) (pending : (s.node id).resolution = .pending) (holds : (Accord.attending b n (path ++ [id])).Holds value)
    (run : Runs (Resolve.computing id (value fun _ => True)) s r t) (forward : s.Forward t) (busy : t.session.busy = s.session.busy)
    (affords : t.Affords b n) : ∃ log,
      Account b n path (fun attend => ConfTree.attending attend (⟨.value,path,id,·⟩) (Resolve.computing id (value attend))) s r t log := by
  rcases Runs.bind_inv run with ⟨_,s',attached,_⟩ | ⟨e,refused,rfl⟩
  · obtain ⟨rfl,_⟩ := Upkeep.requireSession_ok attached
    have old := Upkeep.attached attached
    have began := underway.computing old pending
    obtain ⟨u,result,w,state,ran,alike,rfl,ended⟩ := Resolve.computing_ended attached (fun result u ran => by
      obtain ⟨_,account⟩ := holds _ _ u began ran
      exact (account.next began).form) run
    obtain ⟨log,account⟩ := holds _ _ u began ran
    have after := account.next began
    have inside : id < w.nodes.size := by
      rw [alike.nodes]
      exact Nat.lt_of_lt_of_le (by simpa [Store.entered,Store.inSession] using old) account.course.forward.grows
    have here : (((w.update id (Resolve.computed state)).left id).node id).resolution = state := by
      rw [Store.node_left,Store.node_update_self inside]
      rfl
    have finished : state ≠ .pending ∧ state ≠ .active := by
      rcases ended with ⟨v,rfl,_⟩ | ⟨fault,_,rfl,_⟩ <;> exact ⟨by simp,by simp⟩
    have answered (resolved : ((w.update id (Resolve.computed state)).left id).Resolved id) : ∃ v, result = .ok v := by
      obtain ⟨v,done⟩ := resolved
      rcases ended with ⟨v,_,given⟩ | ⟨fault,_,rfl,_⟩
      · exact ⟨v,given⟩
      · rw [here] at done
        cases done
    have given (v : Value) (same : r = .ok v) : ((w.update id (Resolve.computed state)).left id).Resolved id := by
      rcases ended with ⟨v,rfl,_⟩ | ⟨_,_,_,rfl⟩
      · exact ⟨v,here⟩
      · cases same
    have kept := (Upkeep.around (.refl s') (Upkeep.computed_linked .active) account.course.kept after.form alike (Upkeep.computed_linked state)
      (fun active => absurd active finished.2) fun active => by
        have still := account.course.kept.modification id active
        rw [Store.node_entered,Store.node_update_self old] at still
        exact still).2
    have course := Course.computed underway placed pending account.course forward kept busy
      (fun x apart => by rw [Store.node_left,Store.node_update_ne apart,alike.node]) (by rw [here]; exact finished.1)
      ((after.working id).mpr (by simp)) fun resolved y demanded => by
        obtain ⟨v,given⟩ := answered resolved
        exact account.replies v given id y (List.getLast?_concat ..) demanded
    refine ⟨_,{
      records := (Records.computing attached account.records run).attending fun s => ⟨.value,path,id,s⟩
      course
      affords
      typed := ((Discipline.typed.alike u w alike account.typed).1.update (by
        rw [alike.node]
        exact account.typed.bodies id)).left id
      replies := fun v same x y last demanded => ?_ }⟩
    rcases Demanded.cons.mp demanded with demanded | demanded
    · obtain ⟨_,_,_,rfl⟩ := Demanded.single demanded
      exact given v same
    · exact absurd (List.mem_of_getLast? last) (account.course.apart demanded)
  · have still : Still (do requireSession id; unending : StoreM Value) := (Still.requireSession id).bind fun _ => .unending
    have account := Account.of_still underway still (refused.bind_error (f := fun _ => unending))
    have same (attend : Event → Prop) : Resolve.computing id (value attend) s = (do requireSession id; unending : StoreM Value) s := by
      rw [Resolve.computing,Runs.bind_apply,Runs.bind_apply,show requireSession id s = _ from refused]
    exact ⟨_,(account.congr same).attending underway (fun _ => placed) fun _ _ same => by cases same⟩

/-! ## Settling and resolving -/

/-- Attended work evaluates a declaration as it would alone, where all content is typed. -/
theorem Calls.declaration_alone {attend : Event → Prop} (typed : s.Typed) :
    (attended attend host depth path).declaration id s = (alone host depth).declaration id s := by
  cases depth with
  | zero => rfl
  | succ depth => exact Typed.declaration_same typed id

namespace Accord

/-- A mapping is marked before its entries are settled, and gives an account if these do. -/
theorem settleMapping_accounts {calls : (Event → Prop) → Calls} (settles : ∀ id, (attending b n path).Holds fun attend => (calls attend).settle id)
    {r : Except Thrown Unit} (underway : s.Underway b n path) (mapping : s.kind id = .mapping)
    (run : Runs (Resolve.settle (calls fun _ => True) id) s r t) :
    ∃ log, Account b n path (fun attend => Resolve.settle (calls attend) id) s r t log := by
  rw [Store.kind,Node.kind] at mapping
  cases body : (s.node id).body with
  | mapping entries isSettled =>
    have read (attend : Event → Prop) : Resolve.settle (calls attend) id s = (do
        if !isSettled then
          modifyBody id fun _ => .mapping entries true
          Resolve.settleEntries (calls attend) id entries : StoreM Unit) s := by
      rw [Resolve.settle,Runs.bind_apply]
      simp only [show getNode id s = some (.ok (s.node id),s) from rfl,body]
    cases isSettled with
    | true => exact ⟨[],(Account.of_still underway (Discipline.Keeps.pure ()) ((read fun _ => True).symm.trans run)).congr read⟩
    | false =>
      have eased : s.Eased (s.update id fun n => { n with body := .mapping entries true }) :=
        .update <| .of_body (by rw [body]; rfl) (by rw [body]; rfl) (by rw [body]; rfl) (fun _ => trivial) fun price => Nat.zero_le _
      have marked : Account b n path (fun _ => modifyBody id fun _ => .mapping entries true) s (.ok ()) _ [] :=
        .of_undemanding modifyNode_run (.quiet (by rw [Node.kind,Node.kind,body]; rfl) rfl (by rw [body]; rfl))
          (Upkeep.noted underway.form ⟨by rw [body]; rfl,rfl,rfl,rfl,rfl,List.prefix_rfl⟩).2 rfl (eased.affords underway.affords)
          (underway.typed.update trivial)
      have rest := (Runs.bind_iff modifyNode_run).mp ((read fun _ => True).symm.trans run)
      obtain ⟨log,account⟩ := settleEntries_holds settles id entries _ r t (marked.next underway) rest
      exact ⟨_,(marked.bind underway rfl account).congr read⟩
  | _ =>
    rw [body] at mapping
    cases mapping

variable (host : Host) (sound : ∀ path, (attending b n path).Sound fun attend => Calls.attended attend host depth path)
include sound

/-- Attended work settles a node with an account: unless it is a mapping, it does what it would do alone. -/
theorem settle_step (path : List NodeId) (id : NodeId) :
    (attending b n path).Holds fun attend => (Calls.attended attend host (depth + 1) path).settle id := by
  intro s r t underway run
  have whole : Runs ((Calls.ofDepth host (depth + 1)).settle id) s r t := by
    rw [← Calls.attended_all host (depth + 1) path]
    exact run
  suffices accounts : ∃ log, Account b n path (fun attend => Resolve.settle (Calls.attended attend host depth path) id) s r t log by
    obtain ⟨log,account⟩ := accounts
    exact ⟨_,account.attending underway nofun nofun⟩
  by_cases mapping : s.kind id = .mapping
  · exact settleMapping_accounts (sound path).settle underway mapping (by
      rw [Calls.attended_all]
      exact whole)
  · have same (attend : Event → Prop) : Resolve.settle (Calls.attended attend host depth path) id s =
        Resolve.settle (Calls.alone host depth) id s :=
      Typed.settle_alone (fun t typed => Calls.declaration_alone typed) mapping underway.typed
    have ran : Runs (Resolve.settle (Calls.alone host depth) id) s r t := by
      rw [Runs,← same fun _ => True,Calls.attended_all]
      exact whole
    have upkeep := (Upkeep.regular.settle_step (Calls.alone_sound Upkeep.regular host depth) id s r t underway.form ran).2
    have orderly := (Orderly.bearing.regular.settle_step (Calls.alone_sound Orderly.bearing.regular host depth) id s r t trivial ran).2
    have affords := ((Spending.ofDepth host b n (depth + 1)).settle id s r t underway.affords whole).1
    have typed := (Typed.settle_keeps host depth mapping r t underway.typed ran).1
    exact ⟨[],(Account.of_undemanding ran orderly.1 upkeep orderly.2.1 affords typed).congr same⟩

/-- Attended work resolves a node with an account. -/
theorem resolve_step (path : List NodeId) (id : NodeId) :
    (attending b n path).Holds fun attend => (Calls.attended attend host (depth + 1) path).resolve id := by
  intro s r t underway run
  by_cases here : s.current id = id
  · have whole : Runs ((Calls.ofDepth host (depth + 1)).resolve id) s r t := by
      rw [← Calls.attended_all host (depth + 1) path]
      exact run
    obtain ⟨_,forward,busy,_⟩ := (Orderly.ofDepth host (depth + 1)).resolve id s r t trivial whole
    have affords := ((Spending.ofDepth host b n (depth + 1)).resolve id s r t underway.affords whole).1
    -- what was resolved before, or is being so, is answered at once
    have answered {a : StoreM Value} (still : Still a) (same : ∀ attend,
        Resolve.resolve host (Calls.attended attend host depth (path ++ [id])) id s = a s)
        (answer : ∀ v, Runs a s (.ok v) t → s.Resolved id) : ∃ log, Account b n path
          (fun attend => (Calls.attended attend host (depth + 1) path).resolve id) s r t log := by
      have ran : Runs a s r t := (same fun _ => True).symm.trans <| by
        rw [Calls.attended_all]
        exact whole
      refine ⟨_,(((Account.of_still underway still ran).congr same).attending underway (fun _ => here) fun _ v given => ?_).congr
        fun _ => Calls.attended_resolve here⟩
      exact forward.resolved (answer v (given ▸ ran))
    cases resolution : (s.node id).resolution with
    | done v =>
      exact answered (Discipline.Keeps.pure v) (fun _ => by rw [Resolve.resolve_here here,resolution]) fun _ _ => ⟨v,resolution⟩
    | failed fault =>
      exact answered (Discipline.Keeps.throw (.fault fault)) (fun _ => by rw [Resolve.resolve_here here,resolution])
        fun v run => nomatch (Runs.throw_iff.mp run).1
    | active =>
      exact answered (Judgement.reportCycle_holds (fun id => (Still.requireSession id).keeps) id : Discipline.looking.keeping.Holds _)
        (fun _ => by rw [Resolve.resolve_here here,resolution]) fun v run => absurd run Resolve.reportCycle_fails
    | pending =>
      have same (attend : Event → Prop) : Resolve.resolve host (Calls.attended attend host depth (path ++ [id])) id s =
          Resolve.computing id (Resolve.value host (Calls.attended attend host depth (path ++ [id])) id) s := by
        rw [Resolve.resolve_here here,resolution]
      have ran : Runs (Resolve.computing id (Resolve.value host (Calls.attended (fun _ => True) host depth (path ++ [id])) id)) s r t := by
        rw [Runs,← same,Calls.attended_all]
        exact whole
      obtain ⟨log,account⟩ := Account.of_computing underway here resolution (value_holds (sound (path ++ [id])) host id) ran forward busy affords
      exact ⟨log,account.congr fun attend => (Calls.attended_resolve here).trans (attending_congr (same attend))⟩
  · have moved (attend : Event → Prop) := @Calls.attended_resolve_moved s attend host depth path id here
    obtain ⟨log,account⟩ := (sound path).resolve (s.current id) s r t underway ((moved fun _ => True).symm.trans run)
    exact ⟨log,account.congr moved⟩

end Accord

end ConfTree
