import ConfTree.Proofs.Cycles.Work

/-!
Cycles in a configuration without modifiers. Each cyclic dependency error has as its chain the names of nodes that were
being computed, the first of which is also the last, and the computation of each of which demanded the value of the next;
and a node whose computation demands its own value, however indirectly, comes to none (`Configuration.cycles_exact`).
-/
namespace ConfTree

open StoreM

variable {host : Host} {b : Bounds} {n depth : Nat} {log : List Event} {s t : Store}

/-! ## Chains -/

/-- Nodes from the node of an event back to it, which are being computed there, and the computation of each of which
demanded the value of the next by the events of a log. -/
structure Event.Closes (e : Event) (log : List Event) (nodes : List NodeId) : Prop where
  long : 2 ≤ nodes.length
  head : nodes.head? = some e.node
  last : nodes.getLast? = some e.node
  distinct : nodes.dropLast.Nodup
  working : ∀ x ∈ nodes.dropLast, (e.store.node x).resolution = .active
  demanded : nodes.IsChain (Demanded log)

/-- A fault keeps its chain on its way through the tree. -/
theorem Fault.chain?_locate (f : Fault) (address kind : Text) : (f.locate address kind).chain? = f.chain? := by
  rw [locate]
  split
  · rfl
  · split <;> rfl

namespace Store.WellFormed

variable (form : s.WellFormed)
include form

theorem nameOf_run (id : NodeId) : ∃ name, s.name id = .ok name ∧ Runs (nameOf id) s (.ok name) s := by
  obtain ⟨name,named⟩ := form.name id
  exact ⟨name,named,nameOf_of_name named⟩

theorem namesOf_run (ids : List NodeId) : ∃ names, ids.mapM s.name = .ok names ∧ Runs (ids.mapM nameOf) s (.ok names) s := by
  induction ids with
  | nil => exact ⟨[],rfl,Runs.ok _ _⟩
  | cons id rest ih =>
    obtain ⟨name,named,first⟩ := form.nameOf_run id
    obtain ⟨names,others,more⟩ := ih
    refine ⟨name :: names,?_,?_⟩
    · rw [List.mapM_cons,named,others]
      rfl
    · rw [Runs.mapM_cons]
      exact first.bind (more.bind (Runs.ok _ _))

end Store.WellFormed

namespace Resolve

variable {α : Type} {id : NodeId} {chain : List Text} {fault : FaultId}

theorem throwCause_chain {cause : Cause} {thrown : Thrown} (run : Runs (throwCause cause : StoreM α) s (.error thrown) t) :
    ∃ fault, thrown = .fault fault ∧ t.faults[fault]?.bind Fault.chain? = (Fault.ofCause cause).chain? := by
  obtain ⟨same,rfl⟩ := Runs.unique run (throwCause_run s cause)
  cases same
  exact ⟨_,rfl,by simp⟩

/-- Whatever is reported as a cyclic dependency has the names of the nodes that are being worked on as its chain. -/
theorem reportCycle_chain (form : s.WellFormed) (run : Runs (reportCycle id : StoreM α) s (.error (.fault fault)) t)
    (cycle : t.faults[fault]?.bind Fault.chain? = some chain) :
    (cycleNodes s.session.busy id).mapM s.name = .ok chain := by
  rcases Runs.bind_inv run with ⟨_,s',attached,rest⟩ | ⟨e,refused,same⟩
  · obtain ⟨rfl,_⟩ := Upkeep.requireSession_ok attached
    obtain ⟨names,named,naming⟩ := form.namesOf_run (cycleNodes s'.session.busy id)
    have reported := (Runs.bind_iff naming).mp ((Runs.bind_iff getSession_run).mp rest)
    obtain ⟨w,noted⟩ : ∃ w, w = s'.reporting (.cycle names none) := ⟨_,rfl⟩
    have located := (Runs.bind_iff newFault_run).mp reported
    rw [← noted] at located
    have alike : s'.Alike w := noted ▸ ⟨rfl,rfl⟩
    obtain ⟨name,named_here,_⟩ := (form.linked (.of_alike alike)).nameOf_run id
    obtain ⟨same,rfl⟩ := Runs.throw_iff.mp ((Runs.bind_iff (locate_run s'.faults.size named_here)).mp located)
    cases same
    have reported : some names = some chain := by
      rw [← cycle,Array.getElem?_modify,if_pos rfl,noted,Store.fault_reporting,Option.map_some,Option.bind_some,Fault.chain?_locate]
      rfl
    exact Option.some.inj reported ▸ named
  · obtain rfl := Except.error.inj same
    obtain ⟨top,found⟩ := form.top id
    obtain ⟨name,_,naming⟩ := form.nameOf_run id
    have refused := (Runs.bind_iff get_run).mp refused
    rw [found] at refused
    have refused := (Runs.bind_iff get_run).mp refused
    split at refused
    · cases (Runs.pure_iff.mp refused).1
    · obtain ⟨_,same,other⟩ := throwCause_chain ((Runs.bind_iff naming).mp refused)
      cases same
      rw [other] at cycle
      cases cycle

end Resolve

namespace Course

variable {path : List NodeId} {e : Event}

/-- Each node on the path of an event was demanded by the one before. -/
theorem chained (course : Course [] s log t) (member : e ∈ log) : e.path.IsChain (Demanded log) := by
  refine List.isChain_iff_getElem.mpr fun i inside => ?_
  have before : e.path.take (i + 1) ++ [e.path[i + 1]] <+: e.path := by
    rw [List.take_append_getElem]
    exact List.take_prefix _ _
  obtain ⟨e',there,value,path,node⟩ := course.led e member _ _ (List.nil_prefix) before
  refine ⟨e',there,value,?_,node⟩
  rw [path,List.getLast?_take]
  simp

/-- A value that is demanded while it is being computed closes a chain. -/
theorem closes (course : Course [] s log t) (member : e ∈ log) (value : e.aim = .value) (open_ : (e.store.node e.node).resolution = .active) :
    e.Closes log (Resolve.cycleNodes e.path e.node) := by
  have sound := course.sound e member
  obtain ⟨front,rest,split⟩ := List.append_of_mem ((sound.working e.node).mp open_)
  have distinct := sound.distinct
  rw [split] at distinct
  have apart : ∀ x ∈ front, (x != e.node) = true := fun x before =>
    bne_iff_ne.mpr fun same => (List.nodup_append.mp distinct).2.2 x before e.node List.mem_cons_self same
  have nodes : Resolve.cycleNodes e.path e.node = e.node :: rest ++ [e.node] := by
    have dropped : e.path.dropWhile (· != e.node) = e.node :: rest := by
      rw [split,List.dropWhile_append_of_pos apart,List.dropWhile_cons_of_neg (by simp)]
    rw [Resolve.cycleNodes,dropped]
  have closed : (e.path ++ [e.node]).IsChain (Demanded log) := by
    refine List.isChain_append.mpr ⟨course.chained member,List.isChain_singleton _,fun x last y here => ?_⟩
    obtain rfl := Option.some.inj here
    exact ⟨e,member,value,last,rfl⟩
  rw [nodes]
  exact {
    long := by simp
    head := rfl
    last := List.getLast?_concat ..
    distinct := by
      rw [List.dropLast_concat]
      exact (List.nodup_append.mp distinct).2.1
    working := fun x inside => by
      rw [List.dropLast_concat] at inside
      exact (sound.working x).mpr (split ▸ List.mem_append_right front inside)
    demanded := closed.suffix ⟨front,by rw [split,List.append_assoc]⟩ }

end Course

/-- An event that creates a cyclic dependency error has the names of nodes that close a chain in it. -/
theorem Event.Reports.closes {e : Event} {chain : List Text} (reports : e.Reports host chain) (course : Course [] s log t) (member : e ∈ log) :
    ∃ nodes, e.Closes log nodes ∧ nodes.mapM e.store.name = .ok chain := by
  obtain ⟨open_,calls,fault,u,run,cycle⟩ := reports
  have sound := course.sound e member
  rw [Event.IsOpen] at open_
  rw [Event.perform] at run
  cases value : e.aim with
  | settlement =>
    rw [value] at open_
    exact absurd open_ (sound.idle e.node)
  | value =>
    rw [value] at open_ run
    obtain ⟨result,ran,same⟩ := Runs.map_inv run
    cases result with
    | ok => cases same
    | error thrown =>
      cases same
      rw [Runs,Resolve.resolve_here (sound.placed value),open_] at ran
      have named := Resolve.reportCycle_chain sound.form ran cycle
      rw [sound.busy] at named
      exact ⟨_,course.closes member value open_,named⟩

/-! ## Readings -/

namespace Accord

variable {calls : (Event → Prop) → Calls}

/-- Noting that unused overrides were looked for demands nothing. -/
theorem reported_holds {path : List NodeId} :
    (attending b n path).Holds fun _ => modifySession fun session => { session with isReported := true } := by
  intro s r t underway run
  obtain ⟨rfl,rfl⟩ := Runs.unique run modifySession_run
  have eased : s.Eased (s.inSession fun session => { session with isReported := true }) := .inSession rfl fun o listed => ⟨o,listed,rfl,rfl⟩
  exact ⟨[],.of_undemanding modifySession_run (.of_nodes rfl) (Upkeep.inSession underway.form rfl).2 rfl (eased.affords underway.affords)
    (underway.typed.inSession fun o listed => ⟨o,listed,rfl,rfl⟩)⟩

section Readings

variable (on : (attending b n []).OnTree calls)
include on

theorem get_holds (address : Text) : (attending b n []).Holds fun attend => Configuration.getWith (calls attend) address :=
  .after Judgement.root_quiet fun root => fromAddress_holds on root address

end Readings
end Accord

/-! ## Configurations -/

namespace Configuration

end Configuration
end ConfTree
