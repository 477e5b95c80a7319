import ConfTree.Tree.Action

/-!
# Runs

That an action, started in a store, ends with an outcome and leaves another store. A run of a
composed action is made of the runs of its parts, and only of those; each step of work on the store
has its run.
-/
namespace ConfTree

section Except

variable {ε α β : Type} {r : Except ε α} {b : β}

theorem ok_of_map {f : α → β} (ok : f <$> r = .ok b) : ∃ a, r = .ok a ∧ f a = b := by
  cases r with
  | ok a => exact ⟨a,rfl,Except.ok.inj ok⟩
  | error => cases ok

theorem ok_of_bind {f : α → Except ε β} (ok : r >>= f = .ok b) : ∃ a, r = .ok a ∧ f a = .ok b := by
  cases r with
  | ok a => exact ⟨a,rfl,ok⟩
  | error => cases ok

end Except

variable {α β : Type}

/-- From the store `s` the action ends with the outcome `r` and leaves the store `s'`. -/
def Runs (a : StoreM α) (s : Store) (r : Except Thrown α) (s' : Store) : Prop := a s = some (r,s')

namespace Runs

variable {a : StoreM α} {f : α → StoreM β} {s s' s'' : Store} {r : Except Thrown α} {v : α} {w : β} {e : Thrown}

theorem unique {r' : Except Thrown α} (first : Runs a s r s') (second : Runs a s r' s'') : r = r' ∧ s' = s'' := by
  have same := first.symm.trans second
  simpa using same

/-! ## Composition -/

theorem bind_apply (a : StoreM α) (f : α → StoreM β) (s : Store) :
    (a >>= f : StoreM β) s = match a s with
      | none => none
      | some (.ok v,s') => f v s'
      | some (.error e,s') => some (.error e,s') := by
  show (a s >>= fun p => ExceptT.bindCont f p.1 p.2) = _
  rcases a s with _ | ⟨_ | _,_⟩ <;> rfl

theorem bind {rest : Except Thrown β} (first : Runs a s (.ok v) s') (second : Runs (f v) s' rest s'') :
    Runs (a >>= f) s rest s'' := by
  unfold Runs at *
  rw [bind_apply,first]
  exact second

theorem bind_error (first : Runs a s (.error e) s') : Runs (a >>= f) s (.error e) s' := by
  unfold Runs at *
  rw [bind_apply,first]

/-- A run of two actions in sequence either runs both or ends with what the first one throws. -/
theorem bind_inv {rest : Except Thrown β} (run : Runs (a >>= f) s rest s'') :
    (∃ v s', Runs a s (.ok v) s' ∧ Runs (f v) s' rest s'') ∨
      (∃ e, Runs a s (.error e) s'' ∧ rest = .error e) := by
  unfold Runs at *
  rw [bind_apply] at run
  rcases outcome : a s with _ | ⟨_ | _,_⟩ <;> rw [outcome] at run
  · cases run
  · cases run
    exact .inr ⟨_,rfl,rfl⟩
  · exact .inl ⟨_,_,rfl,run⟩

theorem bind_ok (run : Runs (a >>= f) s (.ok w) s'') :
    ∃ v s', Runs a s (.ok v) s' ∧ Runs (f v) s' (.ok w) s'' := by
  rcases bind_inv run with both | ⟨e,_,impossible⟩
  · exact both
  · cases impossible

@[simp] theorem pure_iff : Runs (Pure.pure v : StoreM α) s r s' ↔ r = .ok v ∧ s' = s := by
  show some (Except.ok v,s) = some (r,s') ↔ _
  simp [eq_comm]

@[simp] theorem throw_iff : Runs (throw e : StoreM α) s r s' ↔ r = .error e ∧ s' = s := by
  show some (Except.error e,s) = some (r,s') ↔ _
  simp [eq_comm]

theorem ok (v : α) (s : Store) : Runs (Pure.pure v : StoreM α) s (.ok v) s := pure_iff.mpr ⟨rfl,rfl⟩

@[simp] theorem unending_iff : ¬ Runs (StoreM.unending : StoreM α) s r s' := nofun

theorem tryCatch_apply (a : StoreM α) (handle : Thrown → StoreM α) (s : Store) :
    (tryCatch a handle : StoreM α) s = match a s with
      | none => none
      | some (.ok v,s') => some (.ok v,s')
      | some (.error e,s') => handle e s' := by
  show (a s >>= fun p => _) = _
  rcases a s with _ | ⟨_ | _,_⟩ <;> rfl

/-- A guarded action ends as it would by itself, unless it throws: then as its handler does. -/
theorem tryCatch_inv {handle : Thrown → StoreM α} (run : Runs (tryCatch a handle) s r s'') :
    (∃ v, r = .ok v ∧ Runs a s (.ok v) s'') ∨ (∃ e s', Runs a s (.error e) s' ∧ Runs (handle e) s' r s'') := by
  unfold Runs at *
  rw [tryCatch_apply] at run
  rcases outcome : a s with _ | ⟨_ | _,_⟩ <;> rw [outcome] at run
  · cases run
  · exact .inr ⟨_,_,rfl,run⟩
  · cases run
    exact .inl ⟨_,rfl,rfl⟩

theorem tryCatch_ok {handle : Thrown → StoreM α} (run : Runs a s (.ok v) s') :
    Runs (tryCatch a handle) s (.ok v) s' := by
  unfold Runs at *
  rw [tryCatch_apply,run]

theorem tryCatch_error {handle : Thrown → StoreM α} (run : Runs a s (.error e) s') (handled : Runs (handle e) s' r s'') :
    Runs (tryCatch a handle) s r s'' := by
  unfold Runs at *
  rw [tryCatch_apply,run]
  exact handled

theorem map_ok {g : α → β} (run : Runs a s (.ok v) s') : Runs (g <$> a) s (.ok (g v)) s' := by
  rw [map_eq_pure_bind]
  exact run.bind (ok _ _)

theorem map_error {g : α → β} (run : Runs a s (.error e) s') : Runs (g <$> a) s (.error e) s' := by
  rw [map_eq_pure_bind]
  exact run.bind_error

theorem map_inv {g : α → β} {rest : Except Thrown β} (run : Runs (g <$> a) s rest s') :
    ∃ r, Runs a s r s' ∧ rest = r.map g := by
  rw [map_eq_pure_bind] at run
  rcases bind_inv run with ⟨v,t,first,last⟩ | ⟨e,first,rfl⟩
  · obtain ⟨rfl,rfl⟩ := pure_iff.mp last
    exact ⟨_,first,rfl⟩
  · exact ⟨_,first,rfl⟩

/-- What follows an action that ends well runs from where that leaves the store. -/
theorem bind_iff {rest : Except Thrown β} (first : Runs a s (.ok v) s') :
    Runs (a >>= f) s rest s'' ↔ Runs (f v) s' rest s'' := by
  unfold Runs at *
  rw [bind_apply,first]

/-! ## Ends and loops -/

theorem bind_ends (first : ∃ r t, Runs a s r t) (rest : ∀ v t, Runs a s (.ok v) t → ∃ r u, Runs (f v) t r u) :
    ∃ r u, Runs (a >>= f) s r u := by
  obtain ⟨r,t,run⟩ := first
  cases r with
  | error e => exact ⟨_,t,run.bind_error⟩
  | ok v =>
    obtain ⟨r,u,last⟩ := rest v t run
    exact ⟨r,u,run.bind last⟩

theorem tryCatch_ends {handle : Thrown → StoreM α} (first : ∃ r t, Runs a s r t) (handled : ∀ e t, ∃ r u, Runs (handle e) t r u) :
    ∃ r u, Runs (tryCatch a handle) s r u := by
  obtain ⟨r,t,run⟩ := first
  cases r with
  | ok v => exact ⟨_,t,tryCatch_ok run⟩
  | error e =>
    obtain ⟨r,u,last⟩ := handled e t
    exact ⟨r,u,tryCatch_error run last⟩

theorem forM_cons (x : α) (xs : List α) (f : α → StoreM PUnit) : (x :: xs).forM f = (f x >>= fun _ => xs.forM f) := rfl

theorem mapM_cons (x : α) (xs : List α) (f : α → StoreM β) :
    (x :: xs).mapM f = (do return (← f x) :: (← xs.mapM f)) := List.mapM_cons

end Runs

/-- From the store `s` the action ends, whether it throws or not, and leaves a store so. -/
def Leads (a : StoreM α) (s : Store) (P : Store → Prop) : Prop := ∃ r t, Runs a s r t ∧ P t

namespace Leads

variable {a : StoreM α} {f : α → StoreM β} {s t : Store} {P Q : Store → Prop}

theorem mono (leads : Leads a s P) (weaker : ∀ t, P t → Q t) : Leads a s Q := by
  obtain ⟨r,t,run,holds⟩ := leads
  exact ⟨r,t,run,weaker t holds⟩

/-- What follows an action that ends well leads on from where that leaves the store. -/
theorem after {v : α} (first : Runs a s (.ok v) t) (rest : Leads (f v) t P) : Leads (a >>= f) s P := by
  obtain ⟨r,u,run,holds⟩ := rest
  exact ⟨r,u,first.bind run,holds⟩

/-- Two actions in sequence lead where the first one throws, or else where the second one leads. -/
theorem followed (first : ∃ r t, Runs a s r t) (failed : ∀ e t, Runs a s (.error e) t → P t)
    (rest : ∀ v t, Runs a s (.ok v) t → Leads (f v) t P) : Leads (a >>= f) s P := by
  obtain ⟨r,t,run⟩ := first
  cases r with
  | error e => exact ⟨_,t,run.bind_error,failed e t run⟩
  | ok v => exact after run (rest v t run)

/-- An action leads to a store of which all holds that it leads to. -/
theorem all {ι : Type} {q : ι → Prop} {P : ι → Store → Prop} (leads : ∀ i, q i → Leads a s (P i)) {i : ι} (holds : q i) :
    Leads a s fun t => ∀ i, q i → P i t := by
  obtain ⟨r,t,run,_⟩ := leads i holds
  refine ⟨r,t,run,fun j holds => ?_⟩
  obtain ⟨_,_,run',also⟩ := leads j holds
  obtain ⟨_,rfl⟩ := Runs.unique run' run
  exact also

theorem map {g : α → β} (leads : Leads a s P) : Leads (g <$> a) s P := by
  obtain ⟨r,t,run,holds⟩ := leads
  cases r with
  | error e => exact ⟨_,t,run.map_error,holds⟩
  | ok v => exact ⟨_,t,run.map_ok,holds⟩

end Leads

/-! ## Stores changed in one place -/

namespace Store

/-- The store with one node changed. -/
def update (s : Store) (id : NodeId) (f : Node → Node) : Store := { s with nodes := s.nodes.modify id f }

/-- The store with its session changed. -/
def inSession (s : Store) (f : Session → Session) : Store := { s with session := f s.session }

/-- The store with some identities given out. -/
def issued (s : Store) (n : Nat) : Store := { s with nextIdentity := s.nextIdentity + n }

/-- The store with one more node. -/
def push (s : Store) (n : Node) : Store := { s with nodes := s.nodes.push n }

/-- The store after a fault was reported. -/
def reporting (s : Store) (cause : Cause) : Store := { s with faults := s.faults.push (.ofCause cause) }

variable {s : Store} {id other : Nat} {f : Node → Node} {n : Node}

@[simp] theorem size_update : (s.update id f).nodes.size = s.nodes.size := by simp [update]

@[simp] theorem size_push : (s.push n).nodes.size = s.nodes.size + 1 := by simp [push]

/-- A fault is under the number that it was reported with. -/
@[simp] theorem fault_reporting {cause : Cause} : (s.reporting cause).faults[s.faults.size]? = some (.ofCause cause) :=
  Array.getElem?_push_size

@[simp] theorem session_update : (s.update id f).session = s.session := rfl

@[simp] theorem session_push : (s.push n).session = s.session := rfl

@[simp] theorem nodes_inSession {g : Session → Session} : (s.inSession g).nodes = s.nodes := rfl

@[simp] theorem session_inSession {g : Session → Session} : (s.inSession g).session = g s.session := rfl

@[simp] theorem nodes_issued {n : Nat} : (s.issued n).nodes = s.nodes := rfl

@[simp] theorem session_issued {n : Nat} : (s.issued n).session = s.session := rfl

@[simp] theorem node_issued {n : Nat} : (s.issued n).node id = s.node id := rfl

@[simp] theorem node_inSession {g : Session → Session} : (s.inSession g).node id = s.node id := rfl

theorem node_of_size_le (outside : s.nodes.size ≤ id) : s.node id = default := by
  simp [node,Array.getElem?_eq_none outside]

theorem node_update : (s.update id f).node other =
    if other = id ∧ id < s.nodes.size then f (s.node other) else s.node other := by
  by_cases inside : other < s.nodes.size
  · simp only [node,update,Array.getElem?_modify,inside,Array.getElem?_eq_getElem,Option.map_some]
    by_cases same : id = other
    · subst same
      simp [inside]
    · simp [same,Ne.symm same]
  · have absent : s.nodes.size ≤ other := by omega
    rw [node_of_size_le (by simpa using absent),node_of_size_le absent,if_neg]
    omega

theorem node_update_self (inside : id < s.nodes.size) : (s.update id f).node id = f (s.node id) := by
  simp [node_update,inside]

theorem node_update_ne (differ : other ≠ id) : (s.update id f).node other = s.node other := by
  simp [node_update,differ]

theorem node_push : (s.push n).node id = if id = s.nodes.size then n else s.node id := by
  simp only [node,push,Array.getElem?_push]
  split <;> rfl

theorem node_push_old (old : id < s.nodes.size) : (s.push n).node id = s.node id := by
  rw [node_push,if_neg (by omega)]

@[simp] theorem node_push_new : (s.push n).node s.nodes.size = n := by simp [node_push]

end Store

/-! ## Steps of work -/

namespace StoreM

variable {s s' : Store} {id : NodeId} {f : Store → StoreM β} {r : Except Thrown β}

@[simp] theorem get_run : Runs (MonadState.get : StoreM Store) s (.ok s) s := rfl

@[simp] theorem getThe_run : Runs (getThe Store : StoreM Store) s (.ok s) s := rfl

@[simp] theorem getNode_run : Runs (getNode id) s (.ok (s.node id)) s := rfl

@[simp] theorem kindOf_run : Runs (kindOf id) s (.ok (s.kind id)) s := rfl

@[simp] theorem current_run : Runs (current id) s (.ok (s.current id)) s := rfl

@[simp] theorem getSession_run : Runs getSession s (.ok s.session) s := rfl

@[simp] theorem modifySession_run {g : Session → Session} : Runs (modifySession g) s (.ok ()) (s.inSession g) := rfl

@[simp] theorem modifyNode_run {g : Node → Node} : Runs (modifyNode id g) s (.ok ()) (s.update id g) := rfl

@[simp] theorem newNode_run {n : Node} : Runs (newNode n) s (.ok s.nodes.size) (s.push n) := rfl

@[simp] theorem newFault_run {cause : Cause} : Runs (newFault cause) s (.ok s.faults.size) (s.reporting cause) := rfl

theorem nameOf_of_name {name : Text} (named : s.name id = .ok name) : Runs (nameOf id) s (.ok name) s := by
  refine get_run.bind ?_
  rw [named]
  exact Runs.ok _ _

theorem locate_run {name : Text} (fault : FaultId) (named : s.name id = .ok name) :
    Runs (locate fault id) s (.ok ()) { s with faults := s.faults.modify fault (·.locate name (s.kind id).name) } :=
  (nameOf_of_name named).bind (kindOf_run.bind rfl)

theorem throwCause_run (s : Store) (cause : Cause) :
    Runs (throwCause cause : StoreM α) s (.error (.fault s.faults.size)) (s.reporting cause) := rfl

theorem throwCause_fails {α : Type} {cause : Cause} {v : α} : ¬ Runs (throwCause cause : StoreM α) s (.ok v) s' := by
  intro run
  obtain ⟨fault,u,_,thrown⟩ := Runs.bind_ok run
  cases (Runs.throw_iff.mp thrown).1

/-- What is done after an action runs from where that leaves the store. -/
theorem cleaningUp_inv {α : Type} {a : StoreM α} {g : Session → Session} {r : Except Thrown α}
    (run : Runs (cleaningUp a (modifySession g)) s r s') : ∃ u, Runs a s r u ∧ s' = u.inSession g := by
  rcases Runs.bind_inv run with ⟨result,u,first,rest⟩ | ⟨e,first,_⟩
  · have last := (Runs.bind_iff modifySession_run).mp rest
    rcases Runs.tryCatch_inv first with ⟨v,same,ended⟩ | ⟨e,w,failed,caught⟩
    · obtain ⟨outcome,worked,mapped⟩ := Runs.map_inv ended
      cases same
      cases outcome with
      | error e => cases mapped
      | ok v' =>
        cases mapped
        obtain ⟨rfl,rfl⟩ := Runs.pure_iff.mp last
        exact ⟨u,worked,rfl⟩
    · obtain ⟨outcome,worked,same⟩ := Runs.map_inv failed
      obtain ⟨result_eq,rfl⟩ := Runs.pure_iff.mp caught
      cases outcome with
      | ok v => cases same
      | error e' =>
        cases same
        cases result_eq
        obtain ⟨rfl,rfl⟩ := Runs.throw_iff.mp last
        exact ⟨u,worked,rfl⟩
  · rcases Runs.tryCatch_inv first with ⟨v,same,_⟩ | ⟨e',w,_,caught⟩
    · cases same
    · cases (Runs.pure_iff.mp caught).1

theorem cleaningUp_run {α : Type} {a : StoreM α} {g : Session → Session} {r : Except Thrown α} (run : Runs a s r s') :
    Runs (cleaningUp a (modifySession g)) s r (s'.inSession g) := by
  cases r with
  | ok v => exact (Runs.tryCatch_ok run.map_ok).bind (modifySession_run.bind (Runs.ok _ _))
  | error e =>
    exact (Runs.tryCatch_error run.map_error (Runs.ok (Except.error e) _)).bind (modifySession_run.bind (Runs.throw_iff.mpr ⟨rfl,rfl⟩))

theorem throwFailure_fails {α : Type} {failure : Failure} {v : α} : ¬ Runs (throwFailure failure : StoreM α) s (.ok v) s' := by
  intro run
  cases failure with
  | cause cause => exact throwCause_fails run
  | foreign message => cases (Runs.throw_iff.mp run).1
  | showing v issue =>
    obtain ⟨_,_,_,thrown⟩ := Runs.bind_ok run
    exact throwCause_fails thrown

theorem compute_run {c : Compute β} {v : β} {next : Identity} (done : c s.nextIdentity = .ok (v,next)) :
    Runs (compute c) s (.ok v) { s with nextIdentity := next } := get_run.bind (by simp only [done]; rfl)

/-- A computation that ends with a value has done nothing but take identities. -/
theorem compute_inv {c : Compute β} {v : β} (run : Runs (compute c) s (.ok v) s') :
    ∃ next, c s.nextIdentity = .ok (v,next) ∧ s' = { s with nextIdentity := next } := by
  have last := (Runs.bind_iff get_run).mp run
  rcases outcome : c s.nextIdentity with failure | ⟨w,next⟩
  · simp only [outcome] at last
    exact absurd last throwFailure_fails
  · obtain ⟨same,rfl⟩ := Runs.unique run (compute_run outcome)
    exact ⟨next,by rw [Except.ok.inj same],rfl⟩

theorem check_run {v : β} {r : Except EvalIssue β} (sound : r = .ok v) : Runs (check r) s (.ok v) s := by
  rw [sound]
  rfl

theorem check_ok {v : β} {r : Except EvalIssue β} (run : Runs (check r) s (.ok v) s') : r = .ok v := by
  cases r with
  | ok =>
    cases run
    rfl
  | error => cases run

theorem compute_fresh_run : Runs (compute Compute.fresh) s (.ok s.nextIdentity) (s.issued 1) := rfl

theorem compute_list_run {vs : List Value} : Runs (compute (Compute.list vs)) s (.ok (.list s.nextIdentity vs)) (s.issued 1) := rfl

theorem compute_mapping_run {pairs : Pairs} :
    Runs (compute (Compute.mapping pairs)) s (.ok (.mapping s.nextIdentity pairs)) (s.issued 1) := rfl

theorem check_bind_congr {α β : Type} {r : Except EvalIssue α} {f g : α → StoreM β} (same : ∀ v, r = .ok v → f v = g v) :
    check r >>= f = check r >>= g := by
  cases r with
  | error issue => funext s; rfl
  | ok v =>
    funext s
    rw [Runs.bind_apply,Runs.bind_apply]
    exact congrFun (same v rfl) _

theorem mapM_same {α β : Type} {f g : α → StoreM β} (xs : List α) (same : ∀ x ∈ xs, f x = g x) : xs.mapM f = xs.mapM g := by
  induction xs with
  | nil => rfl
  | cons x rest ih =>
    obtain ⟨here,there⟩ := List.forall_mem_cons.mp same
    rw [Runs.mapM_cons,Runs.mapM_cons,here,ih there]

end StoreM
end ConfTree
