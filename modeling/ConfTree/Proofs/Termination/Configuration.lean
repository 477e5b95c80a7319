import ConfTree.Proofs.Termination.Stepwise
import ConfTree.Proofs.Watch
import ConfTree.Proofs.WellFormed.Configuration

/-!
Configurations without modifiers. When a configuration is made, no node exists before its tree is built,
so the tree can be graded and the work on it has a cost (`createWith_affords`), which no
reading raises. So, whatever was read before, the value of the whole tree and that at each address are come to
with so much depth of references (`unmodified_resolves`), however the references go.
-/
namespace ConfTree

open StoreM

variable {host : Host} {calls calls' : Calls} {depth : Nat} {s t : Store}

/-! ## Bounds -/

namespace Override

variable {b b' : Bounds} {o : Override}

theorem Within.mono (within : o.Within b) (reach : b.reach ≤ b'.reach) (bulk : b.bulk ≤ b'.bulk) : o.Within b' where
  short := Nat.lt_of_lt_of_le within.short reach
  small c read := ⟨Nat.le_trans (within.small c read).1 bulk,(within.small c read).2⟩

/-- All overrides by values without modifiers are within some bounds. -/
theorem exists_within (overrides : List Override) (unmodified : ∀ o ∈ overrides, o.value.isUnmodified = true) :
    ∃ b : Bounds, ∀ o ∈ overrides, o.Within b := by
  induction overrides with
  | nil => exact ⟨⟨0,0⟩,nofun⟩
  | cons o rest ih =>
    obtain ⟨b,within⟩ := ih fun o' member => unmodified o' (List.mem_cons_of_mem _ member)
    obtain ⟨size,small⟩ : ∃ size, ∀ c, Content.ofValue o.target o.value = .ok c → c.size ≤ size := by
      cases read : Content.ofValue o.target o.value with
      | error cause => exact ⟨0,nofun⟩
      | ok c => exact ⟨c.size,fun c' same => Except.ok.inj same ▸ Nat.le_refl _⟩
    refine ⟨⟨max b.reach (o.target.length + 1),max b.bulk size⟩,fun o' member => ?_⟩
    rcases List.mem_cons.mp member with rfl | member
    · exact ⟨Nat.le_max_right _ _,fun c read => ⟨Nat.le_trans (small c read) (Nat.le_max_right _ _),
        Content.ofValue_unmodified o'.value (unmodified o' List.mem_cons_self) read⟩⟩
    · exact (within o' member).mono (Nat.le_max_left _ _) (Nat.le_max_left _ _)

end Override

namespace Store

variable {b : Bounds} {g : Nat → Nat}

theorem graded_of_empty (empty : s.nodes.size = 0) (overrides : s.session.overrides = []) : s.Graded b g := by
  have node (id : Nat) : s.node id = default := node_of_size_le (empty ▸ Nat.zero_le id)
  exact {
    form := wellFormed_of_empty empty
    seats := fun c id place => by
      rw [Store.below,node] at place
      cases place
    homes := fun id kind => by
      rw [Store.kind,node] at kind
      cases kind
    unmodified := fun id => by
      rw [node]
      trivial
    root := fun id bound => by
      rw [node] at bound
      cases bound
    replaced := fun x y next => by
      rw [node] at next
      cases next
    parent := fun x p parent => by
      rw [node] at parent
      cases parent
    entry := fun e m parent _ => by
      rw [node] at parent
      cases parent
    overrides := fun o listed => by
      rw [overrides] at listed
      cases listed }

end Store

/-- The work on a configuration without modifiers has a cost when it is made. -/
theorem createWith_affords {options : Options} {raw : Value} {next : Identity}
    (run : Runs (Configuration.createWith host (Calls.ofDepth host depth) options raw) (Store.empty next) (.ok ()) s)
    (document : raw.isUnmodified = true) (overrides : ∀ o ∈ s.session.overrides, o.value.isUnmodified = true) :
    ∃ b n, s.Affords b n := by
  obtain ⟨settings,context,given,root,u,v,_,accepted,built,rfl⟩ := createWith_inv run
  obtain ⟨empty,session⟩ := Blank.ofInputs accepted rfl
  obtain ⟨c,read,planted⟩ := Store.build_ok built
  have distinct := Content.ofValue_distinct raw read
  have form := Store.wellFormed_of_empty empty
  obtain ⟨root',v',planted',sprouts⟩ := plant_sprouts c distinct form
  obtain ⟨same,rfl⟩ := Runs.unique planted planted'
  obtain rfl := Except.ok.inj same
  obtain ⟨b,within⟩ := Override.exists_within given overrides
  obtain ⟨sown,top⟩ := plant_sown 0 c distinct (Content.ofValue_unmodified raw document read) form planted
  have graded : v.Graded b (Store.extended (fun _ => 0) u.nodes.size 0) := (Store.graded_of_empty empty (by rw [session]; rfl)).sown sprouts sown top
  obtain ⟨w,w_eq⟩ : ∃ w, w = v.inSession fun session => { session with overrides := given, loader := options.loader } := ⟨_,rfl⟩
  have linked : v.Linked w := w_eq ▸ .inSession rfl
  have free : (w.node w.session.root).isBound = false := by
    rw [(linked.node _).isBound]
    exact (sprouts.grows.unbegun _ (empty ▸ Nat.zero_le _)).unbound
  have loose := (sprouts.loose root (List.mem_singleton_self _)).1.linked linked
  have shaped := Store.rootedAt_shaped w root
  rw [← w_eq]
  refine ⟨b,_,_,(graded.shaped (linked.shaped.trans shaped) ((graded.form.linked linked).rootedAt loose free) (fun id => ?_) (fun id _ => ?_)
    fun o listed => ?_),Nat.le_refl _⟩
  · rw [Store.rootedAt,Store.node_inSession,Store.node_update,w_eq]
    split <;> exact graded.unmodified id
  · exact ite_self _
  · rw [w_eq] at listed
    exact within o listed

/-! ## Readings -/

/-- What completes under a discipline keeps it, and so does all work below it. -/
theorem Judgement.Sound.keeping_of_below {D : Discipline} (sound : D.completing.Sound calls') (below : calls.Below calls') :
    D.keeping.Sound calls := by
  have keeps {α : Type} {a a' : StoreM α} (below : Below a a') (holds : D.completing.Holds a') : D.keeping.Holds a :=
    fun s r t fits run => (holds s).keepsAt r t fits (below s r t run)
  exact ⟨⟨fun id => keeps (below.resolve id) (sound.resolve id),fun id => keeps (below.settle id) (sound.settle id),
    fun id => keeps (below.settled id) (sound.settled id),fun id selector => keeps (below.child id selector) (sound.child id selector)⟩,
    fun id => keeps (.refl _) (sound.attached id),fun o args keyword => keeps (below.invoke o args keyword) (sound.invoke o args keyword),
    fun op v w => keeps (below.operate op v w) (sound.operate op v w)⟩

theorem reported_holds (b : Bounds) (n : Nat) :
    (Judgement.affordable b n).Holds (modifySession fun session => { session with isReported := true }) := fun s affords =>
  have eased : s.Eased (s.inSession fun session => { session with isReported := true }) := .inSession rfl fun o listed => ⟨o,listed,rfl,rfl⟩
  ⟨_,_,modifySession_run,eased.affords affords,.of_eased eased⟩

/-- No work on a tree without modifiers, to whatever depth, makes the work that is left cost more. -/
theorem Spending.ofDepth (host : Host) (b : Bounds) (n depth : Nat) : (Discipline.spending b n).keeping.Sound (Calls.ofDepth host depth) := by
  have quiet : Quiet (Pure.pure .null : StoreM Value) := .pure _
  have manages := Calls.stepwise_manages host b quiet n (Nat.le_max_right depth (5 * (n + 1)))
  exact manages.sound.keeping_of_below
    ((Calls.ofDepth_le host (Nat.le_max_left depth _)).trans (Calls.below_stepwise (Pure.pure .null) host _))

/-- No reading makes the work that is left cost more. -/
theorem Readings.affords {b : Bounds} {n : Nat} (readings : Readings (Calls.ofDepth host depth) s t) (affords : s.Affords b n) :
    t.Affords b n :=
  (readings.keeps (Spending.ofDepth host b n depth) (fun s => (reported_holds b n s).keepsAt) affords).1

namespace Configuration

/-- A configuration without modifiers can always be read, if each call of a function and each operation counts as one step:
whatever was read before, there is a depth of references from which on the value of the whole tree, and that at each address, is
come to, or else an error. Nothing is asked of the references, which may go in circles or be computed, nor of the types that keys
declare. The keys of a configuration are those of its document and of the values that its overrides put in it. What the work
on a tree comes to without that reckoning is the same. -/
theorem unmodified_resolves {options : Options} {raw : Value} {next : Identity} {cut : StoreM Value} {s₀ : Store}
    (created : Runs (createWith host (Calls.ofDepth host depth) options raw) (Store.empty next) (.ok ()) s₀)
    (document : raw.isUnmodified = true) (overrides : ∀ o ∈ s₀.session.overrides, o.value.isUnmodified = true)
    (readings : Readings (Calls.ofDepth host depth) s₀ s) (quiet : Quiet cut) :
    (∃ enough, (∃ r t, ∀ deep, enough ≤ deep → Runs (resolveWith (Calls.stepwise cut host deep)) s r t) ∧
      ∀ address, ∃ r t, ∀ deep, enough ≤ deep →
        Runs (do (Calls.stepwise cut host deep).resolve (← getWith (Calls.stepwise cut host deep) address)) s r t) ∧
    ∀ deep, (Calls.ofDepth host deep).Below (Calls.stepwise cut host deep) := by
  obtain ⟨b,n,affords⟩ := createWith_affords created document overrides
  have affords' := readings.affords affords
  have sound := (Calls.stepwise_manages host b quiet n (Nat.le_refl (5 * (n + 1)))).sound
  refine ⟨⟨5 * (n + 1),?_,fun address => ?_⟩,Calls.below_stepwise cut host⟩
  · obtain ⟨r,t,run,_⟩ := Judgement.resolve_holds sound (reported_holds b n) s affords'
    exact ⟨r,t,fun deep le => resolveWith_below (Calls.stepwise_le le) s r t run⟩
  · obtain ⟨r,t,run,_⟩ := ((Judgement.get_holds sound address).bind fun id => sound.resolve id) s affords'
    exact ⟨r,t,fun deep le => ((getWith_below (Calls.stepwise_le le) address).bind (Calls.stepwise_le le).resolve) s r t run⟩

/-- Values that refer to each other, by a computed address among others, and one put in place that refers to itself: reading
them comes to an end. -/
example : ∃ s₀ enough,
    Runs (createWith (Host.bare [] "") (Calls.ofDepth (Host.bare [] "") 0)
      ⟨[.mapping 1 [("c",.mapping 2 [("d",.text "$: node('d')")])]],[],Registry.standard 0,none,.undefined⟩
      (.mapping 3 [("a",.text "$: ref('b')"),("b",.text "$: [ref(x) for x in ['c','a']]"),("c",.bool true)]))
      (Store.empty 4) (.ok ()) s₀ ∧
    (∃ r t, ∀ deep, enough ≤ deep → Runs (resolveWith (Calls.stepwise (pure .undefined) (Host.bare [] "") deep)) s₀ r t) ∧
    ∀ address, ∃ r t, ∀ deep, enough ≤ deep → Runs (do
      (Calls.stepwise (pure .undefined) (Host.bare [] "") deep).resolve
        (← getWith (Calls.stepwise (pure .undefined) (Host.bare [] "") deep) address)) s₀ r t := by
  have made : ((createWith (Host.bare [] "") (Calls.ofDepth (Host.bare [] "") 0)
      ⟨[.mapping 1 [("c",.mapping 2 [("d",.text "$: node('d')")])]],[],Registry.standard 0,none,.undefined⟩
      (.mapping 3 [("a",.text "$: ref('b')"),("b",.text "$: [ref(x) for x in ['c','a']]"),("c",.bool true)]))
      (Store.empty 4)).any (fun p => p.1.isOk && p.2.session.overrides.all fun o => o.value.isUnmodified) = true := by
    decide +kernel
  obtain ⟨⟨r,s₀⟩,created,accepted⟩ := (Option.any_eq_true _ _).mp made
  obtain ⟨ok,overrides⟩ := Bool.and_eq_true_iff.mp accepted
  cases r with
  | error e => cases ok
  | ok =>
    obtain ⟨⟨enough,whole,each⟩,_⟩ := unmodified_resolves created (by decide +kernel) (List.all_eq_true.mp overrides) (.start s₀)
      (Judgement.Holds.pure Value.undefined)
    exact ⟨s₀,enough,created,whole,each⟩

end Configuration
end ConfTree
