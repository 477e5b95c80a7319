import ConfTree.Proofs.Accord.Work
import ConfTree.Proofs.Cycles.Typed
import ConfTree.Proofs.Progress

/-!
The course of attended work. While the computations of the nodes on a path are under way (`Store.Underway`), these
nodes and no others are being computed, and they are the list of nodes being worked on; so each event is found in such
a store, and each node on its path was demanded by the one before (`Course`). A node that comes to have a value has it
after all nodes that its computation demanded have theirs (`Course.answered`, `Course.founded`). All this composes, and
so makes an accord (`Accord.attending`).
-/
namespace ConfTree

open StoreM

variable {α β : Type} {b : Bounds} {n : Nat} {path : List NodeId} {log log' : List Event} {s t u : Store}

/-- The value of the node was computed. -/
def Store.Resolved (s : Store) (x : NodeId) : Prop := ∃ v, (s.node x).resolution = .done v

/-- The nodes on a path are being computed, and no others are; the content is typed, and the work that is left can be done
with so much. -/
structure Store.Underway (b : Bounds) (n : Nat) (path : List NodeId) (s : Store) : Prop where
  affords : s.Affords b n
  typed : s.Typed
  busy : s.session.busy = path
  working : ∀ x, (s.node x).resolution = .active ↔ x ∈ path
  idle : ∀ x, (s.node x).body.modification? ≠ some .active
  distinct : path.Nodup

/-- Where the event occurs, the nodes on its path and no others are being computed, and the node whose value is demanded
is in its place. -/
structure Event.Sound (e : Event) : Prop where
  placed : e.aim = .value → e.store.current e.node = e.node
  form : e.store.WellFormed
  busy : e.store.session.busy = e.path
  working : ∀ x, (e.store.node x).resolution = .active ↔ x ∈ e.path
  idle : ∀ x, (e.store.node x).body.modification? ≠ some .active
  distinct : e.path.Nodup

namespace Demanded

variable {x y : NodeId}

theorem of_settlements (aims : ∀ e ∈ log, e.aim = .settlement) : ¬ Demanded log x y := by
  rintro ⟨e,member,value,_⟩
  rw [aims e member] at value
  cases value

/-- The one that demands is the last node on the path of the event. -/
theorem single {e : Event} (demanded : Demanded [e] x y) : x ∈ e.path ∧ e.aim = .value ∧ e.path.getLast? = some x ∧ e.node = y := by
  obtain ⟨e',member,value,last,here⟩ := demanded
  obtain rfl := List.mem_singleton.mp member
  exact ⟨List.mem_of_getLast? last,value,last,here⟩

theorem append : Demanded (log ++ log') x y ↔ Demanded log x y ∨ Demanded log' x y := by
  simp only [Demanded,List.mem_append,or_and_right,exists_or]

theorem cons {e : Event} : Demanded (e :: log) x y ↔ Demanded [e] x y ∨ Demanded log x y := @append [e] log x y

end Demanded

/-- What the events of a log are, that occur while the nodes on a path are being computed, and what comes of them. -/
structure Course (path : List NodeId) (s : Store) (log : List Event) (t : Store) : Prop where
  forward : s.Forward t
  kept : s.Kept t
  busy : t.session.busy = s.session.busy
  sound : ∀ e ∈ log, e.Sound
  within : ∀ e ∈ log, path <+: e.path
  /-- further nodes on the path of an event were demanded by those before them -/
  led : ∀ e ∈ log, ∀ before x, path <+: before → before ++ [x] <+: e.path →
    ∃ e' ∈ log, e'.aim = .value ∧ e'.path = before ∧ e'.node = x
  started : ∀ x y, Demanded log x y → x ∈ path ∨ (s.node x).resolution = .pending ∧ (t.node x).resolution ≠ .pending
  answered : ∀ x y, Demanded log x y → t.Resolved x → t.Resolved y
  /-- among nodes that were not resolved before, what is resolved after what it demanded is not demanded in a circle -/
  founded : ∀ x, t.Resolved x → ¬ s.Resolved x → Acc (fun y x => Demanded log x y ∧ ¬ s.Resolved y) x

theorem Store.Forward.resolved (forward : s.Forward t) {x : NodeId} (resolved : s.Resolved x) : t.Resolved x := by
  obtain ⟨v,done⟩ := resolved
  rcases forward.resolution x with pending | same
  · rw [done] at pending
    cases pending
  · exact ⟨v,same.trans done⟩

theorem Store.Forward.begun (forward : s.Forward t) {x : NodeId} (begun : (s.node x).resolution ≠ .pending) :
    (t.node x).resolution = (s.node x).resolution := (forward.resolution x).resolve_left begun

theorem Store.not_resolved {x : NodeId} (active : (s.node x).resolution = .active) : ¬ s.Resolved x := by
  rintro ⟨v,done⟩
  rw [active] at done
  cases done

namespace Store.Underway

variable (underway : s.Underway b n path)
include underway

theorem form : s.WellFormed := by
  obtain ⟨g,graded,_⟩ := underway.affords
  exact graded.form

/-- What is being computed is so still after more work. -/
theorem active (forward : s.Forward t) {x : NodeId} (member : x ∈ path) : (t.node x).resolution = .active := by
  have here := (underway.working x).mpr member
  rw [forward.begun (by rw [here]; exact nofun),here]

theorem sound {aim : Aim} {id : NodeId} (placed : aim = .value → s.current id = id) : Event.Sound ⟨aim,path,id,s⟩ :=
  ⟨placed,underway.form,underway.busy,underway.working,underway.idle,underway.distinct⟩

theorem next (forward : s.Forward t) (kept : s.Kept t) (busy : t.session.busy = s.session.busy) (affords : t.Affords b n) (typed : t.Typed) :
    t.Underway b n path where
  affords := affords
  typed := typed
  busy := busy.trans underway.busy
  working x := ⟨fun active => (underway.working x).mp (kept.resolution x active),underway.active forward⟩
  idle x active := underway.idle x (kept.modification x active)
  distinct := underway.distinct

end Store.Underway

namespace Course

/-- No path goes on beyond itself. -/
theorem no_further {before : List NodeId} {x : NodeId} (onto : path <+: before) : ¬ before ++ [x] <+: path := by
  intro further
  have long := onto.length_le
  have short := further.length_le
  rw [List.length_append,List.length_singleton] at short
  omega

/-- What ends where nothing was demanded. -/
theorem of_undemanding (forward : s.Forward t) (kept : s.Kept t) (busy : t.session.busy = s.session.busy)
    (sound : ∀ e ∈ log, e.Sound) (within : ∀ e ∈ log, e.path = path) (aims : ∀ e ∈ log, e.aim = .settlement) : Course path s log t where
  forward := forward
  kept := kept
  busy := busy
  sound := sound
  within e member := within e member ▸ List.prefix_refl path
  led e member _ _ onto further := absurd (within e member ▸ further) (no_further onto)
  started _ _ demanded := absurd demanded (Demanded.of_settlements aims)
  answered _ _ demanded := absurd demanded (Demanded.of_settlements aims)
  founded _ _ _ := .intro _ fun _ demanded => absurd demanded.1 (Demanded.of_settlements aims)

/-- Where only faults are reported nothing is demanded. -/
theorem of_alike (alike : s.Alike t) (form : s.WellFormed) : Course path s [] t :=
  of_undemanding (.of_nodes alike.nodes) (Discipline.upkeep.alike s t alike form).2 (by rw [alike.session])
    (List.forall_mem_nil _) (List.forall_mem_nil _) (List.forall_mem_nil _)

/-- An event that leads to no other one, and is answered at once where it demands a value. -/
theorem event (underway : s.Underway b n path) {aim : Aim} {id : NodeId} (placed : aim = .value → s.current id = id) :
    Course path s [⟨aim,path,id,s⟩] s where
  forward := .refl s
  kept := .refl s
  busy := rfl
  sound := List.forall_mem_singleton.mpr (underway.sound placed)
  within := List.forall_mem_singleton.mpr (List.prefix_refl path)
  led e member before x onto further := by
    obtain rfl := List.mem_singleton.mp member
    exact absurd further (no_further onto)
  started x y demanded := .inl (Demanded.single demanded).1
  answered x y demanded resolved := absurd resolved (Store.not_resolved ((underway.working x).mpr (Demanded.single demanded).1))
  founded x resolved unresolved := absurd resolved unresolved

/-- What demanded something in a course and comes to have a value later has it at the end of the course. -/
theorem ended (course : Course path s log t) (active : ∀ x ∈ path, (s.node x).resolution = .active) (later : t.Forward u) {x y : NodeId}
    (demanded : Demanded log x y) (resolved : u.Resolved x) : t.Resolved x := by
  obtain ⟨v,done⟩ := resolved
  rcases course.started x y demanded with member | ⟨_,begun⟩
  · have still := (active x member)
    have same := (course.forward.trans later).begun (by rw [still]; exact nofun)
    rw [still,done] at same
    cases same
  · exact ⟨v,(later.begun begun).symm.trans done⟩

/-- One course after another one, when the nodes on the path are being computed. -/
theorem trans (active : ∀ x ∈ path, (s.node x).resolution = .active) (first : Course path s log t) (second : Course path t log' u) :
    Course path s (log ++ log') u where
  forward := first.forward.trans second.forward
  kept := first.kept.trans second.kept
  busy := second.busy.trans first.busy
  sound := List.forall_mem_append.mpr ⟨first.sound,second.sound⟩
  within := List.forall_mem_append.mpr ⟨first.within,second.within⟩
  led e member before x onto further := by
    rcases List.mem_append.mp member with member | member
    · obtain ⟨e',there,same⟩ := first.led e member before x onto further
      exact ⟨e',List.mem_append_left _ there,same⟩
    · obtain ⟨e',there,same⟩ := second.led e member before x onto further
      exact ⟨e',List.mem_append_right _ there,same⟩
  started x y demanded := by
    rcases Demanded.append.mp demanded with demanded | demanded
    · refine (first.started x y demanded).imp_right fun ⟨pending,begun⟩ => ⟨pending,?_⟩
      rwa [second.forward.begun begun]
    · refine (second.started x y demanded).imp_right fun ⟨pending,begun⟩ => ⟨?_,begun⟩
      exact (first.forward.resolution x).elim id fun same => same ▸ pending
  answered x y demanded resolved := by
    rcases Demanded.append.mp demanded with demanded | demanded
    · exact second.forward.resolved (first.answered x y demanded (first.ended active second.forward demanded resolved))
    · exact second.answered x y demanded resolved
  founded := by
    -- what was resolved by the first course demanded nothing in the second one
    have early {x : NodeId} (acc : Acc (fun y x => Demanded log x y ∧ ¬ s.Resolved y) x) (resolved : t.Resolved x) :
        Acc (fun y x => Demanded (log ++ log') x y ∧ ¬ s.Resolved y) x := by
      induction acc with
      | intro x _ ih =>
        refine .intro x fun y ⟨demanded,unresolved⟩ => ?_
        rcases Demanded.append.mp demanded with demanded | demanded
        · exact ih y ⟨demanded,unresolved⟩ (first.answered x y demanded resolved)
        · obtain ⟨v,done⟩ := resolved
          rcases second.started x y demanded with member | ⟨pending,_⟩
          · have still := active x member
            rw [← first.forward.begun (by rw [still]; exact nofun),done] at still
            cases still
          · rw [done] at pending
            cases pending
    -- what was resolved by the second one demanded nothing in the first
    have late {x : NodeId} (acc : Acc (fun y x => Demanded log' x y ∧ ¬ t.Resolved y) x) (resolved : u.Resolved x)
        (unresolved : ¬ t.Resolved x) : Acc (fun y x => Demanded (log ++ log') x y ∧ ¬ s.Resolved y) x := by
      induction acc with
      | intro x _ ih =>
        refine .intro x fun y ⟨demanded,fresh⟩ => ?_
        rcases Demanded.append.mp demanded with demanded | demanded
        · exact absurd (first.ended active second.forward demanded resolved) unresolved
        · have answer := second.answered x y demanded resolved
          by_cases before : t.Resolved y
          · exact early (first.founded y before fresh) before
          · exact ih y ⟨demanded,before⟩ answer before
    intro x resolved fresh
    by_cases before : t.Resolved x
    · exact early (first.founded x before fresh) before
    · exact late (second.founded x resolved before) resolved before

/-- The course of a first computation: within it the node is on the path, and what the node itself demanded has a value
when the node has one. -/
theorem computed {id : NodeId} (underway : s.Underway b n path) (placed : s.current id = id) (pending : (s.node id).resolution = .pending)
    (inner : Course (path ++ [id]) ((s.update id (Resolve.computed .active)).entered id) log u)
    (forward : s.Forward t) (kept : s.Kept t) (busy : t.session.busy = s.session.busy)
    (others : ∀ x, x ≠ id → (t.node x).resolution = (u.node x).resolution) (left : (t.node id).resolution ≠ .pending)
    (active : (u.node id).resolution = .active) (answers : t.Resolved id → ∀ y, Demanded log id y → u.Resolved y) :
    Course path s (⟨.value,path,id,s⟩ :: log) t := by
  have outside : id ∉ path := fun member => by
    have active := (underway.working id).mpr member
    rw [pending] at active
    cases active
  have began (x : NodeId) (apart : x ≠ id) : (((s.update id (Resolve.computed .active)).entered id).node x).resolution = (s.node x).resolution := by
    rw [Store.node_entered,Store.node_update_ne apart]
  have same (x : NodeId) (apart : x ≠ id) : t.Resolved x ↔ u.Resolved x := by rw [Store.Resolved,Store.Resolved,others x apart]
  have apart {x : NodeId} (resolved : u.Resolved x) : x ≠ id := fun same => Store.not_resolved active (same ▸ resolved)
  have fresh {x : NodeId} (unresolved : ¬ s.Resolved x) (resolved : u.Resolved x) :
      ¬ ((s.update id (Resolve.computed .active)).entered id).Resolved x := by
    rwa [Store.Resolved,began x (apart resolved)]
  -- what is demanded by a node further up does not come to have a value meanwhile
  have above {x y : NodeId} (demanded : Demanded [⟨.value,path,id,s⟩] x y) (resolved : t.Resolved x) : False :=
    Store.not_resolved (underway.active forward (Demanded.single demanded).1) resolved
  have answered (x y : NodeId) (demanded : Demanded log x y) (resolved : t.Resolved x) : u.Resolved y := by
    by_cases here : x = id
    · exact answers (here ▸ resolved) y (here ▸ demanded)
    · exact inner.answered x y demanded ((same x here).mp resolved)
  have later {x : NodeId} (acc : Acc (fun y x => Demanded log x y ∧ ¬ ((s.update id (Resolve.computed .active)).entered id).Resolved y) x)
      (resolved : u.Resolved x) : Acc (fun y x => Demanded (⟨.value,path,id,s⟩ :: log) x y ∧ ¬ s.Resolved y) x := by
    induction acc with
    | intro x _ ih =>
      refine .intro x fun y ⟨demanded,unresolved⟩ => ?_
      rcases Demanded.cons.mp demanded with demanded | demanded
      · exact (above demanded ((same x (apart resolved)).mpr resolved)).elim
      · have answer := inner.answered x y demanded resolved
        exact ih y ⟨demanded,fresh unresolved answer⟩ answer
  exact {
    forward
    kept
    busy
    sound := List.forall_mem_cons.mpr ⟨underway.sound fun _ => placed,inner.sound⟩
    within := List.forall_mem_cons.mpr ⟨List.prefix_refl path,fun e member => (List.prefix_append path [id]).trans (inner.within e member)⟩
    led := fun e member before x onto further => by
      rcases List.mem_cons.mp member with rfl | member
      · exact absurd further (no_further onto)
      · by_cases here : before = path
        · have once := List.prefix_of_prefix_length_le further (inner.within e member) (by simp [here])
          have same := once.eq_of_length (by simp [here])
          rw [here] at same ⊢
          exact ⟨_,List.mem_cons_self,rfl,rfl,(List.singleton_inj.mp (List.append_cancel_left same)).symm⟩
        · have long : path.length < before.length := Nat.lt_of_le_of_ne onto.length_le fun same => here (onto.eq_of_length same).symm
          have beyond := List.prefix_of_prefix_length_le (inner.within e member) ((List.prefix_append before [x]).trans further)
            (by rw [List.length_append,List.length_singleton]; exact long)
          obtain ⟨e',there,found⟩ := inner.led e member before x beyond further
          exact ⟨e',List.mem_cons_of_mem _ there,found⟩
    started := fun x y demanded => by
      rcases Demanded.cons.mp demanded with demanded | demanded
      · exact .inl (Demanded.single demanded).1
      · by_cases here : x = id
        · exact .inr (here ▸ ⟨pending,left⟩)
        · rcases inner.started x y demanded with member | ⟨before,begun⟩
          · exact .inl ((List.mem_append.mp member).resolve_right fun same => here (List.mem_singleton.mp same))
          · exact .inr ⟨began x here ▸ before,by rwa [others x here]⟩
    answered := fun x y demanded resolved => by
      rcases Demanded.cons.mp demanded with demanded | demanded
      · exact (above demanded resolved).elim
      · have answer := answered x y demanded resolved
        exact (same y (apart answer)).mpr answer
    founded := fun x resolved unresolved => by
      refine .intro x fun y ⟨demanded,fresh'⟩ => ?_
      rcases Demanded.cons.mp demanded with demanded | demanded
      · exact (above demanded resolved).elim
      · have answer := answered x y demanded resolved
        exact later (inner.founded y answer (fresh fresh' answer)) answer }

end Course

/-! ## Accounts -/

/-- An account of what attended work does from a store in which the computations on a path are under way. -/
structure Account (b : Bounds) (n : Nat) (path : List NodeId) (a : (Event → Prop) → StoreM α) (s : Store) (r : Except Thrown α) (t : Store)
    (log : List Event) : Prop where
  records : Records a s r t log
  course : Course path s log t
  affords : t.Affords b n
  typed : t.Typed
  /-- what the last node on the path demanded has a value, unless something is thrown -/
  replies : ∀ v, r = .ok v → ∀ x y, path.getLast? = some x → Demanded log x y → t.Resolved y

namespace Account

variable {a : (Event → Prop) → StoreM α} {f : (Event → Prop) → α → StoreM β} {r : Except Thrown α}

theorem of_still {a : StoreM α} (underway : s.Underway b n path) (still : Still a) (run : Runs a s r t) :
    Account b n path (fun _ => a) s r t [] := by
  have alike := (still s r t trivial run).2
  exact {
    records := .of_same (fun _ => rfl) run
    course := .of_alike alike underway.form
    affords := (Store.Eased.of_alike alike).affords underway.affords
    typed := (Discipline.typed.alike s t alike underway.typed).1
    replies := fun _ _ _ _ _ ⟨_,nothing,_⟩ => absurd nothing List.not_mem_nil }

variable (account : Account b n path a s r t log)
include account

theorem congr {a' : (Event → Prop) → StoreM α} (same : ∀ attend, a' attend s = a attend s) : Account b n path a' s r t log where
  records := ⟨fun attend met => (same attend).trans (account.records.ends attend met),
    fun attend missed => (same attend).trans (account.records.stops attend missed)⟩
  course := account.course
  affords := account.affords
  typed := account.typed
  replies := account.replies

theorem next (underway : s.Underway b n path) : t.Underway b n path :=
  underway.next account.course.forward account.course.kept account.course.busy account.affords account.typed

theorem bind_error {e : Thrown} (thrown : r = .error e) :
    Account b n path (fun attend => a attend >>= f attend) s (.error e) t log where
  records := (thrown ▸ account.records).bind_error
  course := account.course
  affords := account.affords
  typed := account.typed
  replies := nofun

theorem bind {v : α} {r' : Except Thrown β} (underway : s.Underway b n path) (given : r = .ok v)
    (rest : Account b n path (fun attend => f attend v) t r' u log') :
    Account b n path (fun attend => a attend >>= f attend) s r' u (log ++ log') where
  records := (given ▸ account.records).bind rest.records
  course := account.course.trans (fun x member => (underway.working x).mpr member) rest.course
  affords := rest.affords
  typed := rest.typed
  replies w same x y last demanded := by
    rcases Demanded.append.mp demanded with demanded | demanded
    · exact rest.course.forward.resolved (account.replies v given x y last demanded)
    · exact rest.replies w same x y last demanded

/-- Where something was thrown, more may be reported, and something else thrown. -/
theorem catch_error {handle : Thrown → StoreM α} {e : Thrown} {r' : Except Thrown α} (underway : s.Underway b n path) (thrown : r = .error e)
    (still : Still (handle e)) (handled : Runs (handle e) t r' u) (replies : ∀ v, r' = .ok v → path = []) :
    Account b n path (fun attend => tryCatch (a attend) handle) s r' u log := by
  have after := of_still (account.next underway) still handled
  exact {
    records := (thrown ▸ account.records).catch_error handled
    course := by simpa using account.course.trans (fun x member => (underway.working x).mpr member) after.course
    affords := after.affords
    typed := after.typed
    replies := fun v same x y last => by rw [replies v same] at last; cases last }

theorem catch_ok {handle : Thrown → StoreM α} {v : α} (given : r = .ok v) :
    Account b n path (fun attend => tryCatch (a attend) handle) s r t log where
  records := by
    subst given
    exact account.records.catch_ok
  course := account.course
  affords := account.affords
  typed := account.typed
  replies := account.replies

end Account

/-- That attended work gives an account of itself, wherever the computations on the path are under way. -/
def Accord.attending (b : Bounds) (n : Nat) (path : List NodeId) : Accord (Event → Prop) where
  Holds a := ∀ s r t, s.Underway b n path → Runs (a fun _ => True) s r t → ∃ log, Account b n path a s r t log
  quiet quiet s r t underway run := ⟨[],.of_still underway quiet.still run⟩
  bind first rest s r u underway run := by
    rcases Runs.bind_inv run with ⟨v,t,ran,later⟩ | ⟨e,failed,rfl⟩
    · obtain ⟨log,account⟩ := first s _ t underway ran
      obtain ⟨log',account'⟩ := rest v t r u (account.next underway) later
      exact ⟨log ++ log',account.bind underway rfl account'⟩
    · obtain ⟨log,account⟩ := first s _ u underway failed
      exact ⟨log,account.bind_error rfl⟩
  rethrow holds refuses s r u underway run := by
    rcases Runs.tryCatch_inv run with ⟨v,rfl,ran⟩ | ⟨e,t,failed,handled⟩
    · obtain ⟨log,account⟩ := holds s _ u underway ran
      exact ⟨log,account.catch_ok rfl⟩
    · obtain ⟨log,account⟩ := holds s _ t underway failed
      obtain ⟨e',rfl⟩ := (refuses e).2.throws t r u handled
      exact ⟨log,account.catch_error underway rfl (refuses e).1.still handled nofun⟩

namespace Accord

theorem of_still {a : StoreM α} (still : Still a) : (attending b n path).Holds fun _ => a :=
  fun _ _ _ underway run => ⟨[],.of_still underway still run⟩

/-- Where no computation is under way, work may go on after something was thrown. -/
theorem caught {a : (Event → Prop) → StoreM α} {handle : Thrown → StoreM α} (holds : (attending b n []).Holds a)
    (still : ∀ e, Still (handle e)) : (attending b n []).Holds fun attend => tryCatch (a attend) handle := by
  intro s r u underway run
  rcases Runs.tryCatch_inv run with ⟨v,rfl,ran⟩ | ⟨e,t,failed,handled⟩
  · obtain ⟨log,account⟩ := holds s _ u underway ran
    exact ⟨log,account.catch_ok rfl⟩
  · obtain ⟨log,account⟩ := holds s _ t underway failed
    exact ⟨log,account.catch_error underway rfl (still e) handled fun _ _ => rfl⟩

end Accord
end ConfTree
