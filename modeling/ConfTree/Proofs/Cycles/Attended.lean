import Mathlib.Logic.Relation
import ConfTree.Proofs.WellFormed.Upkeep

/-!
Attended work. It is the work on a tree, in which each demand for the value of a node, and each settling of a node,
is an event that has to be attended; where one is not, the work does not end. With each event goes the path of nodes
that led to it, the computation of each of which demanded the value of the next. A run has the events of a log when
the same run is had wherever all of these are attended, and none where one is not (`Records`). Work that attends to
everything is the work on a tree (`Calls.attended_all`).
-/
namespace ConfTree

open StoreM

variable {α β : Type} {s t u : Store}

/-- What is done to a node once at most. -/
inductive Aim where
  /-- its value is computed -/
  | value
  /-- the overrides and modifiers below it are applied -/
  | settlement

/-- A node that the work on a tree comes to. -/
structure Event where
  aim : Aim
  /-- the nodes whose computations led to it, each demanded by the one before -/
  path : List NodeId
  node : NodeId
  store : Store

/-- The chain of names of a cyclic dependency. -/
def Fault.chain? (f : Fault) : Option (List Text) :=
  match f.cause with
  | .cycle chain _ => some chain
  | _ => none

namespace Event

/-- The node is being worked on to the same end already. -/
def IsOpen (e : Event) : Prop :=
  match e.aim with
  | .value => (e.store.node e.node).resolution = .active
  | .settlement => (e.store.node e.node).body.modification? = some .active

/-- What is done to the node. -/
def perform (host : Host) (calls : Calls) (e : Event) : StoreM Unit :=
  match e.aim with
  | .value => discard (Resolve.resolve host calls e.node)
  | .settlement => Resolve.settle calls e.node

/-- The event creates a cyclic dependency error with this chain of names: the node is being worked on, and what would be
done to it throws this error, whatever other work it refers to. -/
def Reports (host : Host) (e : Event) (chain : List Text) : Prop :=
  e.IsOpen ∧ ∃ calls fault t, Runs (e.perform host calls) e.store (.error (.fault fault)) t ∧ t.faults[fault]?.bind Fault.chain? = some chain

end Event

/-- By the events of a log, the computation of the first node itself demanded the value of the second one. -/
def Demanded (log : List Event) (x y : NodeId) : Prop := ∃ e ∈ log, e.aim = .value ∧ e.path.getLast? = some x ∧ e.node = y

open Classical in
/-- Does some work if an event that occurs in the store is attended; else it does not end. -/
noncomputable def attending (attend : Event → Prop) (e : Store → Event) (a : StoreM α) : StoreM α := do
  if attend (e (← get)) then a else unending

section Attending

variable {attend : Event → Prop} {e : Store → Event} {a a' : StoreM α}

theorem attending_of (met : attend (e s)) : attending attend e a s = a s := by
  rw [attending,Runs.bind_apply]
  exact congrFun (if_pos met) s

theorem attending_of_not (missed : ¬ attend (e s)) : attending attend e a s = none := by
  rw [attending,Runs.bind_apply]
  exact congrFun (if_neg missed) s

theorem attending_congr (same : a s = a' s) : attending attend e a s = attending attend e a' s := by
  by_cases met : attend (e s)
  · rw [attending_of met,attending_of met,same]
  · rw [attending_of_not met,attending_of_not met]

end Attending

namespace Calls

/-- The work on a tree, to a depth of references, where the nodes on a path are being computed; it ends only as long as
each event is attended. The path is handed on to the work that a node's own computation refers to, and so to no other. -/
noncomputable def attended (attend : Event → Prop) (host : Host) : Nat → List NodeId → Calls
  | 0, _ => exhausted
  | depth + 1, path => {
      resolve := fun id => do
        let now ← current id
        if now ≠ id then (attended attend host depth path).resolve now
        else attending attend (⟨.value,path,id,·⟩) (Resolve.resolve host (attended attend host depth (path ++ [id])) id)
      settle := fun id => attending attend (⟨.settlement,path,id,·⟩) (Resolve.settle (attended attend host depth path) id)
      settled := fun id => Navigate.settled (attended attend host depth path) id
      child := fun id selector => Navigate.child (attended attend host depth path) id selector
      declaration := fun id => Resolve.declaration host (attended attend host depth path) id
      apply := fun m id => Modify.apply host (attended attend host depth path) m id
      invoke := fun o args keyword => Invoke.object host (attended attend host depth path) o args keyword
      operate := Eval.operate }

section Apply

variable {attend : Event → Prop} {host : Host} {depth : Nat} {path : List NodeId} {id : NodeId}

/-- In its own place a node is resolved if that is attended. -/
theorem attended_resolve (here : s.current id = id) : (attended attend host (depth + 1) path).resolve id s =
    attending attend (⟨.value,path,id,·⟩) (Resolve.resolve host (attended attend host depth (path ++ [id])) id) s := by
  rw [attended]
  show (if s.current id ≠ id then _ else _ : StoreM Value) s = _
  rw [if_neg fun moved => moved here]

/-- A node that was replaced is resolved in its place. -/
theorem attended_resolve_moved (moved : s.current id ≠ id) :
    (attended attend host (depth + 1) path).resolve id s = (attended attend host depth path).resolve (s.current id) s := by
  rw [attended]
  show (if s.current id ≠ id then _ else _ : StoreM Value) s = _
  rw [if_pos moved]

end Apply

/-- The work that attends to everything is the work on a tree. -/
theorem attended_all (host : Host) (depth : Nat) (path : List NodeId) : attended (fun _ => True) host depth path = ofDepth host depth := by
  induction depth generalizing path with
  | zero => rfl
  | succ depth ih =>
    have all {α : Type} (e : Store → Event) (a : StoreM α) : attending (fun _ => True) e a = a := funext fun _ => attending_of trivial
    have resolve (id : NodeId) : (do
        let now ← current id
        if now ≠ id then (ofDepth host depth).resolve now else Resolve.resolve host (ofDepth host depth) id) =
          Resolve.resolve host (ofDepth host depth) id := by
      funext s
      rw [Resolve.resolve_eq]
      show (if s.current id ≠ id then _ else _ : StoreM Value) s = (if s.current id ≠ id then _ else _ : StoreM Value) s
      split
      · rfl
      · next here =>
        show (if s.current id ≠ id then _ else _ : StoreM Value) s = _
        rw [if_neg here]
    simp only [attended,ofDepth,ih,all,resolve]

end Calls

/-! ## Logs -/

/-- From this store the action ends so if it attends to the events of the log, and else does not end. -/
structure Records (a : (Event → Prop) → StoreM α) (s : Store) (r : Except Thrown α) (t : Store) (log : List Event) : Prop where
  ends : ∀ attend, (∀ e ∈ log, attend e) → Runs (a attend) s r t
  stops : ∀ attend, ¬ (∀ e ∈ log, attend e) → a attend s = none

namespace Records

variable {a : (Event → Prop) → StoreM α} {f : (Event → Prop) → α → StoreM β} {r : Except Thrown α} {log log' : List Event}

/-- What is the same however attended makes no events. -/
theorem of_same {b : StoreM α} (same : ∀ attend, a attend s = b s) (run : Runs b s r t) : Records a s r t [] where
  ends attend _ := (same attend).trans run
  stops _ missed := absurd (List.forall_mem_nil _) missed

theorem bind {v : α} {r : Except Thrown β} (first : Records a s (.ok v) t log) (rest : Records (fun attend => f attend v) t r u log') :
    Records (fun attend => a attend >>= f attend) s r u (log ++ log') where
  ends attend met := (first.ends attend fun e member => met e (List.mem_append_left _ member)).bind
    (rest.ends attend fun e member => met e (List.mem_append_right _ member))
  stops attend missed := by
    rw [Runs.bind_apply]
    by_cases met : ∀ e ∈ log, attend e
    · rw [first.ends attend met]
      exact rest.stops attend fun later => missed fun e member => (List.mem_append.mp member).elim (met e) (later e)
    · rw [first.stops attend met]

theorem bind_error {e : Thrown} (first : Records a s (.error e) t log) :
    Records (fun attend => a attend >>= f attend) s (.error e) t log where
  ends attend met := (first.ends attend met).bind_error
  stops attend missed := by rw [Runs.bind_apply,first.stops attend missed]

theorem catch_ok {v : α} {handle : Thrown → StoreM α} (records : Records a s (.ok v) t log) :
    Records (fun attend => tryCatch (a attend) handle) s (.ok v) t log where
  ends attend met := Runs.tryCatch_ok (records.ends attend met)
  stops attend missed := by rw [Runs.tryCatch_apply,records.stops attend missed]

theorem catch_error {e : Thrown} {handle : Thrown → StoreM α} (records : Records a s (.error e) t log) (handled : Runs (handle e) t r u) :
    Records (fun attend => tryCatch (a attend) handle) s r u log where
  ends attend met := Runs.tryCatch_error (records.ends attend met) handled
  stops attend missed := by rw [Runs.tryCatch_apply,records.stops attend missed]

/-- An event that is attended first goes before the others. -/
theorem attending (e : Store → Event) (records : Records a s r t log) :
    Records (fun attend => ConfTree.attending attend e (a attend)) s r t (e s :: log) where
  ends attend met := (attending_of (met _ List.mem_cons_self)).trans
    (records.ends attend fun e member => met e (List.mem_cons_of_mem _ member))
  stops attend missed := by
    by_cases here : attend (e s)
    · exact (attending_of here).trans (records.stops attend fun later => missed (List.forall_mem_cons.mpr ⟨here,later⟩))
    · exact attending_of_not here

end Records

/-! ## Guarded work -/

namespace Resolve

variable {id : NodeId} {wrap : Text → Cause} {remember : FaultId → StoreM Unit}

/-- Guarded work depends on its work only as that does when the node was entered. -/
theorem guarded_congr {work work' : StoreM α} (same : work (s.entered id) = work' (s.entered id)) :
    guarded id wrap remember work s = guarded id wrap remember work' s := by
  have entered : enter id s = some (.ok (),s.entered id) := rfl
  simp only [guarded,cleaningUp,map_eq_pure_bind,Runs.bind_apply,Runs.tryCatch_apply,entered,same]

/-- A first computation depends on that of the value only as that is when the node was marked and entered. -/
theorem computing_congr {value value' : StoreM Value}
    (same : value ((s.update id (computed .active)).entered id) = value' ((s.update id (computed .active)).entered id)) :
    computing id value s = computing id value' s := by
  rw [computing,computing,Runs.bind_apply,Runs.bind_apply]
  rcases attached : requireSession id s with _ | ⟨_ | _,t⟩
  · rfl
  · rfl
  · obtain ⟨rfl,_⟩ := Upkeep.requireSession_ok attached
    refine guarded_congr (s := t.update id (computed .active)) ?_
    rw [Runs.bind_apply,Runs.bind_apply,same]

/-- The computation of a node in the session's tree does not end if that of the value does not. -/
theorem computing_unending (attached : Runs (requireSession id) s (.ok ()) s) : computing id unending s = none := by
  rw [computing,Runs.bind_apply,show requireSession id s = _ from attached]
  rfl

/-- A node in its own place is resolved as its progress says. -/
theorem resolve_here {host : Host} {calls : Calls} (here : s.current id = id) : resolve host calls id s =
    (match (s.node id).resolution with
      | .done v => pure v
      | .failed fault => throw (.fault fault)
      | .active => reportCycle id
      | .pending => computing id (value host calls id) : StoreM Value) s := by
  rw [resolve_eq,Runs.bind_apply]
  show (if s.current id ≠ id then _ else _ : StoreM Value) s = _
  rw [if_neg fun moved => moved here]
  rfl

/-- A first modification depends on that of the value only as that is when the entry was marked and entered. -/
theorem modifying_congr {declare declare' : StoreM Bool}
    (same : declare ((s.update id (modified .active)).entered id) = declare' ((s.update id (modified .active)).entered id)) :
    modifying id declare s = modifying id declare' s := by
  rw [modifying,modifying,Runs.bind_apply,Runs.bind_apply]
  rcases attached : requireSession id s with _ | ⟨_ | _,t⟩
  · rfl
  · rfl
  · obtain ⟨rfl,_⟩ := Upkeep.requireSession_ok attached
    refine guarded_congr (s := t.update id (modified .active)) ?_
    rw [Runs.bind_apply,Runs.bind_apply,same]

end Resolve
end ConfTree
