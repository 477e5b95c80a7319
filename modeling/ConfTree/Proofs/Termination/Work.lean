import ConfTree.Proofs.Termination.Spending

/-!
The work on a tree where no entry has modifiers. If the work that it refers to ends wherever less is left to do
(`Calls.Manages`), then settling a node ends and computing a value does, since both save something before they
refer to anything else. What they are the steps of ends then as well: navigation, resolution, calls and, last,
declarations.
-/
namespace ConfTree

open StoreM

/-- The action ends, after which no more work is left, and what declaration it comes to has no modifiers. -/
def Store.Declares (b : Bounds) (s : Store) (a : StoreM Declaration) : Prop :=
  ∃ r t, Runs a s r t ∧ s.Spends b t ∧ ∀ d, r = .ok d → d.modifiers = []

/-- All work but that of modifiers ends where the work that is left can be done with so much. -/
structure Calls.Manages (b : Bounds) (n : Nat) (calls : Calls) : Prop where
  sound : (Judgement.affordable b n).Sound calls
  declares : ∀ (s : Store) id, s.Affords b n → s.Declares b (calls.declaration id)

/-- The value of an entry stands in its place, and is no entry. -/
theorem Store.Graded.value {b : Bounds} {g : Nat → Nat} {s : Store} {e : Nat} (graded : s.Graded b g) (entry : s.kind e = .entry) :
    s.entryValue e < s.nodes.size ∧ s.Live (s.entryValue e) ∧ s.kind (s.entryValue e) ≠ .entry := by
  obtain ⟨slot,place,value⟩ : ∃ slot, slot ∈ s.below e ∧ s.entryValue e = s.current slot := by
    rw [Store.kind,Node.kind] at entry
    cases body : (s.node e).body with
    | entry head slot =>
      refine ⟨slot,?_,?_⟩
      · rw [Store.below,body]
        exact List.mem_singleton_self _
      · rw [Store.entryValue,Store.slot,body]
    | _ => rw [body] at entry; cases entry
  obtain ⟨parent,live⟩ := graded.seats e slot place
  rw [value,current_of_live live]
  refine ⟨graded.form.listed e slot place,live,fun kind => ?_⟩
  obtain ⟨m,parent',mapping⟩ := graded.homes slot kind
  rw [parent] at parent'
  obtain rfl := Option.some.inj parent'
  rw [entry] at mapping
  cases mapping

namespace Spending

open Discipline Store

variable {b : Bounds} {n : Nat} {s : Store} {id : Nat}

/-! ## Settling -/

/-- To apply overrides to the items of a sequence saves what was reckoned for it. -/
theorem settleSequence_leads {items declared : List NodeId} (body : (s.node id).body = .sequence items declared false)
    (affords : s.Affords b n) : Leads (Resolve.settleSequence id items declared) s fun t => s.Saves b t := by
  obtain ⟨g,graded,_⟩ := affords
  have old : id < s.nodes.size := Nat.lt_of_not_le fun outside => by
    rw [node_of_size_le outside] at body
    cases body
  have below : s.below id = items := by rw [Store.below,body]; rfl
  have eased : s.Eased (s.update id fun n => { n with body := .sequence items declared true }) := .update <|
    .of_body (by rw [body]; rfl) (by rw [body]; rfl) (by rw [body]; rfl) (fun _ => trivial) fun price => Nat.zero_le _
  refine Leads.after modifyNode_run (Saves.paid items.length items eased old (fun price => ?_) graded fun g graded => ?_)
  · rw [node_update_self old]
    simp [Node.toll,body,Body.toll]
    omega
  · refine Graded.applyOverrides items (eased.graded graded) (below ▸ graded.form.distinct id) fun x member => ?_
    obtain ⟨parent,live⟩ := graded.seats id x (below ▸ member)
    exact ⟨(eased.linked.shaped.live x).mpr live,(eased.node x).parent.trans parent⟩

section Calls

variable {host : Host} {calls : Calls} (lower : ∀ k, k < n → calls.Manages b k)
include lower

/-- To apply the override of an entry's value saves what was reckoned for the entry. -/
theorem declare_leads {slot declared : NodeId} {head : EntryHead} {renamed : Option Text} {evaluated : Option Declaration}
    (body : (s.node id).body = .entry head slot declared renamed .pending evaluated) (affords : s.Affords b n) :
    Leads (Resolve.declare calls id slot) ((s.update id (Resolve.modified .active)).entered id) fun t => s.Saves b t := by
  have old : id < s.nodes.size := old_of_modification (p := .pending) (by rw [body]; rfl)
  have marked : s.Eased (s.update id (Resolve.modified .active)) := .update (.modified (by nofun) _)
  have eased : s.Eased ((s.update id (Resolve.modified .active)).entered id) := marked.trans .busy
  have paid : Leads (applyOverride slot) ((s.update id (Resolve.modified .active)).entered id) fun t => s.Saves b t := by
    obtain ⟨g,graded,_⟩ := affords
    refine Saves.paid 1 [slot] eased old (fun price => ?_) graded fun g graded => ?_
    · rw [node_entered,node_update_self old]
      simp only [Node.toll,Resolve.modified,body,Body.toll]
      omega
    · obtain ⟨parent,live⟩ := graded.seats id slot (by rw [Store.below,body]; exact List.mem_singleton_self _)
      rw [Nat.one_mul]
      exact (eased.graded graded).applyOverride ((eased.linked.shaped.live slot).mpr live) ((eased.node slot).parent.trans parent)
  obtain ⟨r,t,run,saves⟩ := paid
  cases r with
  | error e => exact ⟨_,t,run.bind_error,saves⟩
  | ok node =>
    refine Leads.after run ?_
    obtain ⟨k,less,afford⟩ := saves.lowers n affords
    obtain ⟨r,u,run,spends,unmodified⟩ := (lower k less).declares t id afford
    cases r with
    | error e => exact ⟨_,u,run.bind_error,saves.before spends⟩
    | ok declared =>
      have applied : Runs (Modify.applyAll calls node declared.modifiers) u (.ok node) u := by
        rw [unmodified declared rfl]
        exact Runs.ok _ _
      refine Leads.after run (Leads.after applied ?_)
      cases declared.types with
      | none => exact ⟨_,u,Runs.ok _ _,saves.before spends⟩
      | some types =>
        exact ⟨_,_,modifyNode_run.bind (Runs.ok _ _),(saves.before spends).eased (.update (.of_same rfl rfl rfl rfl rfl))⟩

theorem modifying_completes {slot declared : NodeId} {head : EntryHead} {renamed : Option Text} {evaluated : Option Declaration}
    (body : (s.node id).body = .entry head slot declared renamed .pending evaluated) :
    (spending b n).CompletesAt s (Resolve.modifying id (Resolve.declare calls id slot)) := by
  refine CompletesAt.followed (requireSession_holds id s) fun _ t run _ => ?_
  obtain ⟨rfl,_⟩ := Upkeep.requireSession_ok run
  intro affords
  have notes (fault : FaultId) (n : Node) : n.Eased (Resolve.modified (.failed fault) n) := .modified (by nofun) n
  refine saved (Leads.after modifyNode_run (guarded_leads notes ?_)) affords
  obtain ⟨r,u,run,saves⟩ := declare_leads lower body affords
  cases r with
  | error e => exact ⟨_,u,run.bind_error,saves⟩
  | ok named =>
    have noted : t.Saves b (u.update id (Resolve.modified (.done ()))) := saves.eased (.update (.modified (by nofun) _))
    refine Leads.after run (Leads.after modifyNode_run ?_)
    cases named with
    | false => exact ⟨_,_,Runs.ok _ _,noted⟩
    | true => exact Leads.map (Leads.mono (Quiet.nameOf id _) fun v alike => noted.eased (.of_alike alike))

/-- Settling a node ends, since it saves something before it refers to other work. -/
theorem settle_step (id : NodeId) : (Judgement.affordable b n).Holds (Resolve.settle calls id) := by
  intro s
  refine CompletesAt.after getNode_run ?_
  cases body : (s.node id).body with
  | scalar => exact .pure _
  | sequence items declared isSettled =>
    cases isSettled with
    | true => exact .pure _
    | false => exact fun affords => saved (settleSequence_leads body affords) affords
  | mapping entries isSettled =>
    cases isSettled with
    | true => exact .pure _
    | false =>
      intro affords
      have saves : s.Saves b (s.update id fun n => { n with body := .mapping entries true }) := by
        obtain ⟨g,graded,_⟩ := affords
        have old : id < s.nodes.size := old_of_mapping (by rw [Store.kind,Node.kind,body]; rfl)
        refine .of_eased (.update <| .of_body (by rw [body]; rfl) (by rw [body]; rfl) (by rw [body]; rfl) (fun _ => trivial)
          fun price => Nat.zero_le _) old (fun price => ?_) graded
        rw [node_update_self old]
        simp [Node.toll,body,Body.toll,Nat.add_comm]
      obtain ⟨k,less,afford⟩ := saves.lowers n affords
      refine saved (Leads.after modifyNode_run ?_) affords
      exact (Judgement.settleEntries_holds (lower k less).sound id entries _ afford).mono fun t ends => saves.before ends.2
  | entry head slot declared renamed modification evaluated =>
    cases modification with
    | done => exact .pure _
    | failed fault => exact .throw _
    | active => exact Judgement.reportCycle_holds requireSession_holds id s
    | pending =>
      dsimp only
      rw [Resolve.modifyEntry_pending]
      exact modifying_completes lower body

/-! ## Navigation -/

section Settled

variable (settles : ∀ id, (Judgement.affordable b n).Holds (calls.settle id))
include settles

omit lower in
/-- Settling what stands in a node's place ends: if it is replaced meanwhile, less work is left. -/
theorem settled_completes {α : Type} {f : NodeId → StoreM α}
    (again : ∀ k, k < n → ∀ node, (Judgement.affordable b k).Holds (calls.settled node >>= f))
    (here : ∀ t, s.Spends b t → (spending b n).CompletesAt t (f (s.current id))) :
    (spending b n).CompletesAt s (Navigate.settled calls id >>= f) := by
  intro affords
  unfold Navigate.settled
  simp only [bind_assoc]
  refine (CompletesAt.after current_run ((settles _ s).followed fun _ t _ spends => CompletesAt.after getNode_run ?_)) affords
  split
  · next gone =>
    have live : s.Live (s.current id) := by
      obtain ⟨g,graded,_⟩ := affords
      exact graded.form.current_live id
    have saves := spends.saves live fun live => by
      rw [live] at gone
      cases gone
    obtain ⟨k,less,afford⟩ := saves.lowers n affords
    exact fun _ => lowered (again k less _ t) (Nat.le_of_lt less) afford
  · rw [pure_bind]
    exact here t spends

theorem settled_step (id : NodeId) : (Judgement.affordable b n).Holds (Navigate.settled calls id) := fun s => by
  have completes : (spending b n).CompletesAt s (Navigate.settled calls id >>= Pure.pure) := settled_completes settles
    (fun k less node => ((lower k less).sound.settled node).bind .pure) fun _ _ => .pure _
  rwa [bind_pure] at completes

/-- Selecting a child of a node that is no entry ends. -/
theorem childOf_completes (selector : Selector) (old : id < s.nodes.size) (live : s.Live id) (kind : s.kind id ≠ .entry) :
    (spending b n).CompletesAt s (Navigate.child calls id selector) := by
  refine settled_completes settles (fun k less node => ?_) fun t spends => ?_
  · have sound := (lower k less).sound
    exact (sound.settled node).bind fun node => Judgement.selectChild_holds sound.settle node selector fun id => sound.child id selector
  · rw [current_of_live live,Navigate.selectChild_eq]
    refine CompletesAt.after getNode_run (Judgement.selectIn_holds settles id selector _ (fun entry => ?_) t)
    exact absurd ((spends.kind id old).symm.trans entry) kind

/-- Selecting a child of a node ends: that of an entry is one of its value, which is no entry. -/
theorem child_step (inside : ∀ s id selector, id < s.nodes.size → s.Live id → s.kind id ≠ .entry →
    (spending b n).CompletesAt s (calls.child id selector)) (id : NodeId) (selector : Selector) :
    (Judgement.affordable b n).Holds (Navigate.child calls id selector) := by
  refine (settled_step lower settles id).bind fun node t => ?_
  rw [Navigate.selectChild_eq]
  refine CompletesAt.after getNode_run ?_
  by_cases kind : t.kind node = .entry
  · have value : (spending b n).CompletesAt t (do calls.child (← Navigate.entryValue calls node) selector) := by
      unfold Navigate.entryValue
      simp only [bind_assoc,pure_bind]
      refine (settles node t).followed fun _ u _ spends => CompletesAt.after get_run fun affords => ?_
      have ⟨g,graded,_⟩ := affords
      have old : node < t.nodes.size := Nat.lt_of_not_le fun outside => by
        rw [Store.kind,node_of_size_le outside] at kind
        cases kind
      obtain ⟨known,live,plain⟩ := graded.value ((spends.kind node old).trans kind)
      exact inside u _ selector known live plain affords
    rw [Store.kind,Node.kind] at kind
    cases body : (t.node node).body with
    | entry => exact value
    | _ => rw [body] at kind; cases kind
  · exact Judgement.selectIn_holds settles node selector _ (fun entry => absurd entry kind) t

end Settled

/-! ## Resolution -/

omit lower in
/-- To compute the value of a node for the first time saves something before it refers to other work. -/
theorem computing_completes {value : StoreM Value} (holds : ∀ k, k < n → (Judgement.affordable b k).Holds value)
    (pending : (s.node id).resolution = .pending) : (spending b n).CompletesAt s (Resolve.computing id value) := by
  refine CompletesAt.followed (requireSession_holds id s) fun _ t run _ => ?_
  have old := Upkeep.attached run
  obtain ⟨rfl,_⟩ := Upkeep.requireSession_ok run
  intro affords
  have saves : t.Saves b ((t.update id (Resolve.computed .active)).entered id) := by
    obtain ⟨g,graded,_⟩ := affords
    have marked : t.Eased (t.update id (Resolve.computed .active)) := .update (.computed (by simp) _)
    refine (Saves.of_eased marked old (fun price => ?_) graded).eased .busy
    rw [node_update_self old,Node.toll,Node.toll,pending]
    exact Nat.le_refl _
  obtain ⟨k,less,afford⟩ := saves.lowers n affords
  have notes (fault : FaultId) (n : Node) : n.Eased (Resolve.computed (.failed fault) n) := .computed (by simp) n
  refine saved (Leads.after modifyNode_run (guarded_leads notes ?_)) affords
  obtain ⟨r,u,run,_,spends⟩ := holds k less _ afford
  cases r with
  | error e => exact ⟨_,u,run.bind_error,saves.before spends⟩
  | ok v =>
    have noted : u.Eased (u.update id (Resolve.computed (.done v))) := .update (.computed (by simp) _)
    exact ⟨_,_,run.bind (modifyNode_run.bind (Runs.ok _ _)),(saves.before spends).eased noted⟩

theorem resolve_live (live : s.Live id) : (spending b n).CompletesAt s (Resolve.resolve host calls id) := by
  rw [Resolve.resolve_eq]
  refine CompletesAt.after current_run ?_
  rw [current_of_live live,if_neg (not_not_intro rfl)]
  refine CompletesAt.after getNode_run ?_
  cases resolution : (s.node id).resolution with
  | done v => exact .pure v
  | failed fault => exact .throw _
  | active => exact Judgement.reportCycle_holds requireSession_holds id s
  | pending => exact computing_completes (fun k less => Judgement.value_holds host (lower k less).sound id) resolution

theorem resolve_step (lives : ∀ s id, s.Live id → (spending b n).CompletesAt s (calls.resolve id)) (id : NodeId) :
    (Judgement.affordable b n).Holds (Resolve.resolve host calls id) := by
  intro s affords
  have live : s.Live (s.current id) := by
    obtain ⟨g,graded,_⟩ := affords
    exact graded.form.current_live id
  by_cases here : s.current id = id
  · exact resolve_live lower (here ▸ live) affords
  · rw [Resolve.resolve_eq]
    refine Leads.after current_run ?_
    rw [if_pos here]
    exact lives s _ live affords

end Calls

/-! ## Declarations -/

theorem declaration_unmodified {host : Host} {calls : Calls} {source : DeclarationSource} {locals : Pairs} {d : Declaration} {t : Store}
    (bare : source.modifiers = none) (run : Runs (Expression.declaration host calls source locals) s (.ok d) t) : d.modifiers = [] := by
  obtain ⟨types,u,_,rest⟩ := Runs.bind_ok run
  rw [bare] at rest
  obtain ⟨modifiers,v,first,last⟩ := Runs.bind_ok rest
  obtain ⟨same,rfl⟩ := Runs.pure_iff.mp first
  obtain rfl := Except.ok.inj same
  obtain ⟨same,rfl⟩ := Runs.pure_iff.mp last
  exact congrArg Declaration.modifiers (Except.ok.inj same)

theorem declares_after {α : Type} {a : StoreM α} {f : α → StoreM Declaration} (holds : (Judgement.affordable b n).Holds a)
    (affords : s.Affords b n) (rest : ∀ v t, Runs a s (.ok v) t → t.Affords b n → t.Declares b (f v)) : s.Declares b (a >>= f) := by
  obtain ⟨r,t,run,affords',spends⟩ := holds s affords
  cases r with
  | error e => exact ⟨_,t,run.bind_error,spends,nofun⟩
  | ok v =>
    obtain ⟨r,u,last,further,unmodified⟩ := rest v t run affords'
    exact ⟨r,u,run.bind last,spends.trans further,unmodified⟩

/-- Evaluating the declaration of an entry ends, and finds no modifiers. -/
theorem declares_step {host : Host} {calls : Calls} (sound : (Judgement.affordable b n).Sound calls) (id : NodeId)
    (affords : s.Affords b n) : s.Declares b (Resolve.declaration host calls id) := by
  have unmodified : (s.node id).body.Unmodified := by
    obtain ⟨g,graded,_⟩ := affords
    exact graded.unmodified id
  refine declares_after (Quiet.getNode id).judged affords fun n t run affords => ?_
  obtain ⟨same,rfl⟩ := Runs.unique run getNode_run
  obtain rfl := Except.ok.inj same
  cases body : (t.node id).body with
  | entry head slot declared renamed modification evaluated =>
    rw [body] at unmodified
    obtain ⟨bare,known⟩ := unmodified
    cases evaluated with
    | some d =>
      refine ⟨_,t,Runs.ok d t,.refl t,fun d' same => ?_⟩
      exact Except.ok.inj same ▸ known d rfl
    | none =>
      dsimp only
      rw [bare.inherited]
      refine declares_after (requireSession_holds id) affords fun _ t _ affords => ?_
      refine declares_after Quiet.get.judged affords fun u t _ affords => ?_
      refine declares_after (Judgement.locals_holds sound _) affords fun locals t _ affords => ?_
      refine declares_after (Judgement.declarationOf_holds sound host _ locals) affords fun own t run affords => ?_
      have plain := declaration_unmodified bare.modifiers run
      refine ⟨_,_,(Runs.ok own t).bind (modifyNode_run.bind (Runs.ok _ _)),.of_eased (.update ?_),fun d same => ?_⟩
      · obtain ⟨body⟩ := t.node id
        cases body with
        | entry head slot declared renamed modification evaluated =>
          refine .of_body rfl rfl rfl (fun unmodified => ⟨unmodified.1,fun d same => ?_⟩) fun price => ?_
          · exact Option.some.inj same ▸ plain
          · cases modification <;> exact Nat.le_refl _
        | _ => exact .refl _
      · exact Except.ok.inj same ▸ plain
  | _ =>
    refine ⟨_,t,Runs.ok _ t,.refl t,fun d same => ?_⟩
    exact Except.ok.inj same ▸ rfl

end Spending
end ConfTree
