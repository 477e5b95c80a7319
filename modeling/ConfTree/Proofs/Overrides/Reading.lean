import ConfTree.Configuration
import ConfTree.Proofs.Ascent
import ConfTree.Proofs.Discipline
import ConfTree.Proofs.Overrides.Resolve

/-!
Reading a tree that is over with. Going to an address in it only looks: it ends at a node of the tree or
with an address that leads nowhere, and leaves the nodes and the session alone (`Looks`, `getWith_looks`), so
the search for overrides that match nothing counts no more uses (`reportUnused_run`).
-/
namespace ConfTree

open StoreM

variable {α β : Type} {s t u : Store}

/-! ## Looking -/

/-- An action that ends with a good result or throws a fault that concerns an address, and leaves nodes and
session alone. -/
def Looks (a : StoreM α) (s : Store) (good : α → Prop) : Prop :=
  ∃ r t, Runs a s r t ∧ s.Alike t ∧
    match r with
    | .ok v => good v
    | .error thrown => Runs (Configuration.isAddressFault thrown) t (.ok true) t

namespace Looks

variable {a : StoreM α} {f : α → StoreM β} {good : α → Prop} {better : β → Prop}

theorem of_runs {v : α} (run : Runs a s (.ok v) s) (fine : good v) : Looks a s good := ⟨_,s,run,.refl s,fine⟩

theorem pure {v : α} (fine : good v) : Looks (Pure.pure v) s good := of_runs (Runs.ok _ _) fine

theorem bind (first : Looks a s good) (rest : ∀ v t, s.Alike t → good v → Looks (f v) t better) : Looks (a >>= f) s better := by
  obtain ⟨_ | v,t,run,alike,outcome⟩ := first
  · exact ⟨_,t,run.bind_error,alike,outcome⟩
  · obtain ⟨r,u,runs,further,outcome⟩ := rest v t alike outcome
    exact ⟨r,u,run.bind runs,alike.trans further,outcome⟩

/-- What is done after reading something of the store. -/
theorem after {v : α} (run : Runs a s (.ok v) s) (rest : Looks (f v) s better) : Looks (a >>= f) s better := by
  obtain ⟨r,t,runs,alike,outcome⟩ := rest
  exact ⟨r,t,run.bind runs,alike,outcome⟩

theorem throw_address (issue : AddressIssue) : Looks (throwCause (.address issue) : StoreM α) s good := by
  refine ⟨.error (.fault s.faults.size),s.reporting (.address issue),throwCause_run s _,⟨rfl,rfl⟩,?_⟩
  refine getThe_run.bind ?_
  rw [Store.fault_reporting]
  exact Runs.ok _ _

theorem nameOf {id : NodeId} (ends : s.name id ≠ .error .endless) : Looks (nameOf id) s fun _ => True := by
  rcases name : s.name id with issue | text
  · obtain ⟨r,t,run,alike,outcome⟩ := @throw_address Text s (fun _ => True) issue
    refine ⟨r,t,get_run.bind ?_,alike,outcome⟩
    rw [name] at ends ⊢
    cases issue with
    | endless => exact absurd rfl ends
    | _ => exact run
  · refine of_runs (v := text) (get_run.bind ?_) trivial
    rw [name]
    exact Runs.ok _ _

end Looks

/-! ## Nodes that are over with -/

/-- Nodes that stay where they are, with nothing left to settle, among them all that is next to one of them. -/
structure Calm (s : Store) (inside : Nat → Prop) : Prop where
  live : ∀ x, inside x → (s.node x).replacedBy = none
  settled : ∀ x, inside x → match (s.node x).body with
    | .scalar .. => True
    | .sequence _ _ isSettled | .mapping _ isSettled => isSettled = true
    | .entry _ _ _ _ modification _ => modification = .done () ∧ s.kind (s.entryValue x) ≠ .entry
  below : ∀ x, inside x → ∀ y ∈ s.children x, inside y
  above : ∀ x, inside x → ∀ p, (s.node x).parent = some p → inside p
  named : ∀ x, inside x → s.name x ≠ .error .endless

namespace Calm

variable {inside : Nat → Prop} {x : Nat}

theorem alike (calm : Calm s inside) (alike : s.Alike t) : Calm t inside := by
  have node := alike.node
  have current : t.current = s.current := funext alike.current
  obtain ⟨live,settled,below,above,named⟩ := calm
  refine ⟨fun x here => ?_,fun x here => ?_,fun x here y child => below x here y ?_,fun x here p parent => above x here p ?_,
    fun x here => alike.name x ▸ named x here⟩
  · rw [node]
    exact live x here
  · have fine := settled x here
    rw [node]
    cases body : (s.node x).body with
    | entry =>
      rw [body] at fine
      refine ⟨fine.1,?_⟩
      simpa only [Store.kind,Store.entryValue,Store.slot,node,current] using fine.2
    | _ => rw [body] at fine; exact fine
  · simpa only [Store.children,Store.entryValue,Store.slot,node,current] using child
  · rw [← node]
    exact parent

theorem current (calm : Calm s inside) (here : inside x) : s.current x = x := Store.current_of_live (calm.live x here)

/-- Settling such a node does nothing. -/
theorem settle_run (calm : Calm s inside) (here : inside x) (host : Host) (depth : Nat) :
    Runs ((Calls.ofDepth host (depth + 1)).settle x) s (.ok ()) s := by
  have settled := calm.settled x here
  refine getNode_run.bind ?_
  cases body : (s.node x).body with
  | scalar => exact Runs.ok _ _
  | sequence | mapping =>
    rw [body] at settled
    obtain rfl := settled
    exact Runs.ok _ _
  | entry head slot declared renamed modification evaluated =>
    rw [body] at settled
    obtain ⟨rfl,_⟩ := settled
    exact Runs.ok _ _

theorem settled_run (calm : Calm s inside) (here : inside x) (host : Host) (depth : Nat) :
    Runs (Navigate.settled (Calls.ofDepth host (depth + 1)) x) s (.ok x) s := by
  refine current_run.bind ?_
  rw [calm.current here]
  refine (calm.settle_run here host depth).bind (getNode_run.bind ?_)
  rw [calm.live x here]
  exact Runs.ok _ _

/-- The value of an entry is at hand, and no entry. -/
theorem entryValue_run (calm : Calm s inside) (here : inside x) (host : Host) (depth : Nat) :
    ∃ y : Nat, inside y ∧ s.kind y ≠ .entry ∧ Runs (Navigate.entryValue (Calls.ofDepth host (depth + 1)) x) s (.ok y) s := by
  have settled := calm.settled x here
  have below := calm.below x here
  have run : Runs (Navigate.entryValue (Calls.ofDepth host (depth + 1)) x) s (.ok (s.entryValue x)) s :=
    (calm.settle_run here host depth).bind (get_run.bind (Runs.ok _ _))
  cases body : (s.node x).body with
  | entry =>
    rw [body] at settled
    exact ⟨s.entryValue x,below _ (by rw [Store.children,body]; simp),settled.2,run⟩
  | _ =>
    have self : s.entryValue x = x := by rw [Store.entryValue,Store.slot,body]; exact calm.current here
    exact ⟨x,here,by rw [Store.kind,Node.kind,body]; rintro ⟨⟩,by rw [self] at run; exact run⟩

/-- The container above a node is one of them. -/
theorem above?_inside (calm : Calm s inside) (here : inside x) {p : Nat} (above : s.above? x = some p) : inside p := by
  rw [Store.above?,calm.current here] at above
  obtain ⟨p',parent,rfl⟩ := Option.map_eq_some_iff.mp above
  have next := calm.above x here p' parent
  rw [calm.current next]
  exact next

end Calm

/-! ## The nodes of a tree -/

/-- The nodes that can be reached downward from a node. -/
inductive Within (s : Store) (r : Nat) : Nat → Prop
  | root : Within s r r
  | child {x y : Nat} (within : Within s r x) (child : y ∈ s.children x) : Within s r y

/-- An entry in a tree that is over with. -/
structure FinishedEntry (s : Store) (mapping : Nat) (b : Branch) : Prop where
  container : s.kind mapping = .mapping
  modified : Modified s mapping b
  finished : Finished s b.plot.root
  parent : (s.node b.plot.root).parent = some b.entry

theorem FinishedEntry.value {m : Nat} {b : Branch} (entry : FinishedEntry s m b) : s.entryValue b.entry = b.plot.root := by
  obtain ⟨head,declared,evaluated,_,body⟩ := entry.modified.body
  rw [Store.entryValue,Store.slot,body]
  exact Store.current_of_live entry.finished.live

namespace Within

variable {r x : Nat}

/-- All that is reached in a tree that is over with is over with, and below a node of the tree. -/
theorem finished (within : Within s r x) (top : Finished s r) :
    (Finished s x ∨ ∃ m b, x = b.entry ∧ FinishedEntry s m b) ∧ (x = r ∨ ∃ p, (s.node x).parent = some p ∧ Within s r p) := by
  induction within with
  | root => exact ⟨.inl top,.inl rfl⟩
  | @child x y within child ih =>
    rcases ih.1 with finished | ⟨m,b,rfl,entry⟩
    · cases finished with
      | scalar live body value =>
        rw [Store.children,body] at child
        cases child
      | sequence live body value parents parts =>
        rw [Store.children,body] at child
        obtain ⟨y,member,rfl⟩ := List.mem_map.mp child
        rw [Store.current_of_live (parts y member).live]
        exact ⟨.inl (parts y member),.inr ⟨x,parents y member,within⟩⟩
      | mapping live body value modified parents parts =>
        rw [Store.children,body] at child
        obtain ⟨b,member,rfl⟩ := List.mem_map.mp child
        have container : s.kind x = .mapping := by rw [Store.kind,Node.kind,body]; rfl
        exact ⟨.inr ⟨x,b,rfl,container,modified b member,parts b member,parents b member⟩,.inr ⟨x,(modified b member).parent,within⟩⟩
    · obtain ⟨head,declared,evaluated,_,body⟩ := entry.modified.body
      rw [Store.children,body,entry.value] at child
      obtain rfl := List.mem_singleton.mp child
      exact ⟨.inl entry.finished,.inr ⟨b.entry,entry.parent,within⟩⟩

/-- The way upward from all that is reached ends at the top. -/
theorem height (within : Within s r x) (top : Finished s r) (alone : (s.node r).parent = none) : ∃ n, Height s.namer? n x := by
  have ends : Height s.namer? 0 r := .top (by rw [Store.namer?,Store.current_of_live top.live,alone])
  induction within with
  | root => exact ⟨0,ends⟩
  | @child x y within child ih =>
    obtain ⟨n,height⟩ := ih
    rcases (within.finished top).1 with finished | ⟨m,b,rfl,entry⟩
    · cases finished with
      | scalar live body value =>
        rw [Store.children,body] at child
        cases child
      | sequence live body value parents parts =>
        rw [Store.children,body] at child
        obtain ⟨y,member,rfl⟩ := List.mem_map.mp child
        rw [Store.current_of_live (parts y member).live]
        refine ⟨n + 1,.step ?_ height⟩
        rw [Store.namer?,Store.current_of_live (parts y member).live,parents y member]
        simp [body]
      | mapping live body value modified parents parts =>
        rw [Store.children,body] at child
        obtain ⟨b,member,rfl⟩ := List.mem_map.mp child
        refine ⟨n + 1,.step ?_ height⟩
        rw [Store.namer?,Store.current_of_live (modified b member).live,(modified b member).parent]
        simp [body]
    · obtain ⟨head,declared,evaluated,_,body⟩ := entry.modified.body
      rw [Store.children,body,entry.value] at child
      obtain rfl := List.mem_singleton.mp child
      have up : s.namer? b.entry = some m := by
        rw [Store.namer?,Store.current_of_live entry.modified.live,entry.modified.parent]
        have container := entry.container
        rw [Store.kind,Node.kind] at container
        cases mapping : (s.node m).body with
        | entry => rw [mapping] at container; cases container
        | _ => simp [mapping]
      obtain ⟨k,rfl,above⟩ := height.of_step up
      refine ⟨k + 1,.step ?_ above⟩
      rw [Store.namer?,Store.current_of_live entry.finished.live,entry.parent]
      simp [body,entry.modified.parent]

/-- A tree that is over with can be read without changing it. -/
theorem calm (top : Finished s r) (alone : (s.node r).parent = none) : Calm s (Within s r) where
  live x within := by
    rcases (within.finished top).1 with finished | ⟨m,b,rfl,entry⟩
    · exact finished.live
    · exact entry.modified.live
  settled x within := by
    rcases (within.finished top).1 with finished | ⟨m,b,rfl,entry⟩
    · cases finished with
      | scalar _ body => rw [body]; trivial
      | sequence _ body | mapping _ body => rw [body]
    · obtain ⟨head,declared,evaluated,_,body⟩ := entry.modified.body
      rw [body,entry.value]
      refine ⟨rfl,?_⟩
      rw [Store.kind,Node.kind]
      cases entry.finished with
      | scalar _ body | sequence _ body | mapping _ body => rw [body]; rintro ⟨⟩
  below x within y child := within.child child
  above x within p parent := by
    rcases (within.finished top).2 with rfl | ⟨p',same,above⟩
    · rw [alone] at parent
      cases parent
    · rw [same] at parent
      exact Option.some.inj parent ▸ above
  named x within := (within.height top alone).elim fun _ height => Store.name_ends height

end Within

/-! ## Going to an address -/

section

variable {inside : Nat → Prop} {x : Nat}

theorem itemPlace_looks {id : NodeId} (ends : s.name id ≠ .error .endless) (length : Nat) (index : Number) :
    Looks (Navigate.itemPlace id length index) s fun _ => True := by
  rw [Navigate.itemPlace]
  split
  · exact (Looks.nameOf ends).bind fun name t _ _ => .throw_address _
  · extract_lets place
    clear_value place
    split
    · refine (Looks.nameOf ends).bind fun name t _ _ => ?_
      exact (show Looks _ t (fun _ => True) from .throw_address _).bind fun v u _ _ => .pure trivial
    · exact .pure trivial

theorem selectEntry_looks {id : NodeId} (ends : s.name id ≠ .error .endless) (selector : Text) :
    Looks (Navigate.selectEntry id selector) s fun p => p.1 ∈ s.entries id := by
  refine (Looks.nameOf ends).bind fun name t alike _ => .after get_run ?_
  split
  case h_1 entry found =>
    have member := List.mem_of_find?_eq_some found
    refine .pure ?_
    simpa only [Store.entries,Store.node_eq_of_nodes alike.nodes] using member
  case h_2 => exact .throw_address _

theorem selectChild_looks (calm : Calm s inside) (here : inside x) (host : Host) (depth : Nat) (selector : Selector)
    (container : s.kind x ≠ .entry) : Looks (Navigate.selectChild (Calls.ofDepth host (depth + 1)) x selector) s inside := by
  refine .after getNode_run ?_
  have below := calm.below x here
  rw [Store.children] at below
  have nowhere (issue : Text → AddressIssue) : Looks (do throwCause (.address (issue (← nameOf x)))) s inside :=
    (Looks.nameOf (calm.named x here)).bind fun name t _ _ => .throw_address _
  cases body : (s.node x).body with
  | scalar => exact nowhere _
  | entry => exact absurd (by rw [Store.kind,Node.kind,body]; rfl) container
  | sequence items declared isSettled =>
    rw [body] at below
    cases selector with
    | key => exact nowhere _
    | index index =>
      refine (itemPlace_looks (calm.named x here) items.length index).bind fun place t alike _ => .of_runs current_run ?_
      rw [alike.current]
      rcases item : items[place]? with _ | y
      · rw [Option.getD_none,calm.current here]
        exact here
      · exact below _ (List.mem_map_of_mem (List.mem_of_getElem? item))
  | mapping entries isSettled =>
    rw [body] at below
    cases selector with
    | index => exact nowhere _
    | key key =>
      refine (selectEntry_looks (calm.named x here) key).bind fun found t alike member => ?_
      obtain ⟨entry,entryOnly⟩ := found
      have entry_inside : inside entry := below entry (by simpa [Store.entries,body] using member)
      cases entryOnly with
      | true => exact .pure entry_inside
      | false =>
        obtain ⟨y,y_inside,_,run⟩ := (calm.alike alike).entryValue_run entry_inside host depth
        exact .of_runs run y_inside

theorem child_looks (calm : Calm s inside) (here : inside x) (host : Host) (depth : Nat) (selector : Selector) :
    Looks ((Calls.ofDepth host (depth + 3)).child x selector) s inside := by
  refine .after (calm.settled_run here host (depth + 1)) ?_
  by_cases entry : s.kind x = .entry
  · obtain ⟨y,y_inside,no_entry,run⟩ := calm.entryValue_run here host (depth + 1)
    refine .after getNode_run ?_
    cases body : (s.node x).body with
    | entry =>
      exact .after run (.after (calm.settled_run y_inside host depth) (selectChild_looks calm y_inside host depth selector no_entry))
    | _ => rw [Store.kind,Node.kind,body] at entry; cases entry
  · exact selectChild_looks calm here host (depth + 1) selector entry

theorem ascend_looks (calm : Calm s inside) (here : inside x) (address : Text) :
    Looks (Navigate.ascend address x) s inside := by
  refine .after get_run ?_
  dsimp only
  split
  case h_1 c up =>
    refine .pure ?_
    cases parent : s.above? x with
    | none =>
      rw [parent] at up
      cases up
    | some p =>
      have p_inside := calm.above?_inside here parent
      simp only [parent] at up
      split at up
      · exact calm.above?_inside p_inside up
      · exact Option.some.inj up ▸ p_inside
  case h_2 => exact .throw_address _

theorem ascendBy_looks (calm : Calm s inside) (here : inside x) (address : Text) (levels : Nat) :
    Looks (Navigate.ascendBy address levels x) s inside := by
  induction levels generalizing s x with
  | zero => exact .pure here
  | succ levels ih => exact (ascend_looks calm here address).bind fun y t alike y_inside => ih (calm.alike alike) y_inside

theorem step_looks (calm : Calm s inside) (here : inside x) (host : Host) (depth : Nat) (address : Text) (step : Step) :
    Looks (Navigate.step (Calls.ofDepth host (depth + 3)) address x step) s inside := by
  cases step with
  | ascend levels => exact ascendBy_looks calm here address levels
  | select selector => exact child_looks calm here host depth selector

theorem steps_looks (calm : Calm s inside) (here : inside x) (host : Host) (depth : Nat) (address : Text) (steps : List Step) :
    Looks (steps.foldlM (Navigate.step (Calls.ofDepth host (depth + 3)) address) x) s inside := by
  induction steps generalizing s x with
  | nil => exact .pure here
  | cons step rest ih =>
    rw [List.foldlM_cons]
    exact (step_looks calm here host depth address step).bind fun y t alike y_inside => ih (calm.alike alike) y_inside

/-- Whatever the address, going there from the root only looks. -/
theorem getWith_looks (calm : Calm s inside) (root : inside s.session.root) (host : Host) (depth : Nat) (address : Text) :
    Looks (Configuration.getWith (Calls.ofDepth host (depth + 3)) address) s inside := by
  refine .after (getSession_run.bind (Runs.ok _ _)) (.after current_run ?_)
  rw [calm.current root]
  cases Address.parse address with
  | error issue => exact .throw_address issue
  | ok steps => exact steps_looks calm root host depth address steps

theorem unused_run : Runs Configuration.unused s (.ok (Overrides.unused s.session.overrides)) s := getSession_run.bind (Runs.ok _ _)

/-- Going to targets, whether they lead anywhere or not, leaves nodes and session alone. -/
theorem settleTargets_run (calm : Calm s inside) (root : inside s.session.root) (host : Host) (depth : Nat) :
    ∃ t, Runs (Configuration.settleTargets (Calls.ofDepth host (depth + 3))) s (.ok ()) t ∧ s.Alike t := by
  have each (targets : List Text) (u : Store) (alike : s.Alike u) : ∃ t,
      Runs (targets.forM fun target => tryCatch (discard (Configuration.getWith (Calls.ofDepth host (depth + 3)) target)) fun thrown => do
        unless ← Configuration.isAddressFault thrown do throw thrown) u (.ok ()) t ∧ s.Alike t := by
    induction targets generalizing u with
    | nil => exact ⟨u,Runs.ok _ _,alike⟩
    | cons target rest ih =>
      obtain ⟨r,v,run,further,outcome⟩ := getWith_looks (calm.alike alike) (alike.session ▸ root) host depth target
      obtain ⟨t,runs,last⟩ := ih v (alike.trans further)
      refine ⟨t,?_,last⟩
      rw [Runs.forM_cons]
      cases r with
      | ok y => exact (Runs.tryCatch_ok (Runs.map_ok run)).bind runs
      | error thrown =>
        have caught : Runs (do unless ← Configuration.isAddressFault thrown do throw thrown) v (.ok ()) v :=
          Runs.bind outcome (Runs.ok _ _)
        exact (Runs.tryCatch_error (Runs.map_error run) caught).bind runs
  obtain ⟨t,run,alike⟩ := each (Overrides.unused s.session.overrides) s (.refl s)
  exact ⟨t,unused_run.bind run,alike⟩

/-- The search for overrides that match nothing finds those unused so far and counts no use. -/
theorem reportUnused_run (calm : Calm s inside) (root : inside s.session.root) (host : Host) (depth : Nat)
    (unreported : s.session.isReported = false)
    (lenient : s.session.settings.failOnUnusedOverrides = true → Overrides.unused s.session.overrides = []) :
    ∃ t, Runs (Configuration.reportUnused (Calls.ofDepth host (depth + 3))) s (.ok ()) t ∧
      t.session = { s.session with isReported := true } := by
  obtain ⟨t,run,alike⟩ := settleTargets_run calm root host depth
  refine ⟨t.inSession fun session => { session with isReported := true },getSession_run.bind ?_,?_⟩
  · rw [unreported]
    refine run.bind (unused_run.bind (getSession_run.bind ?_))
    rw [alike.session,if_neg]
    · exact modifySession_run
    · intro refused
      obtain ⟨unmatched,strict⟩ := Bool.and_eq_true_iff.mp refused
      simp [lenient strict] at unmatched
  · rw [Store.session_inSession,alike.session]

end

/-- The whole tree is read by resolving its root, when that leaves it over with and no override that must match is unused. -/
theorem resolveWith_run {root : Nat} {v : Value} (host : Host) (depth : Nat)
    (resolve : Runs ((Calls.ofDepth host (depth + 3)).resolve root) s (.ok v) t) (before : s.session.root = root)
    (after : t.session.root = root) (finished : Finished t root) (alone : (t.node root).parent = none)
    (unreported : t.session.isReported = false)
    (lenient : t.session.settings.failOnUnusedOverrides = true → Overrides.unused t.session.overrides = []) :
    ∃ u, Runs (Configuration.resolveWith (Calls.ofDepth host (depth + 3))) s (.ok v) u ∧
      u.session = { t.session with isReported := true } := by
  have at_root : Runs Configuration.root s (.ok root) s := by
    rw [← before]
    exact getSession_run.bind (Runs.ok _ _)
  have inside : Within t root t.session.root := by
    rw [after]
    exact .root
  obtain ⟨u,report,session⟩ := reportUnused_run (Within.calm finished alone) inside host depth unreported lenient
  exact ⟨u,at_root.bind (resolve.bind (report.bind (Runs.ok _ _))),session⟩

end ConfTree
