import ConfTree.Proofs.Termination.Grading
import ConfTree.Proofs.WellFormed.Upkeep

/-!
The work that an override makes. What an override puts in a place is of the next generation after the container of
the place, and makes no more work than the price of the place (`Graded.applyOverride`); so to put in all places
of a sequence what overrides them makes no more work than was reckoned for it (`Graded.applyOverrides`).
-/
namespace ConfTree

open StoreM

namespace Body.Swaps

variable {x y : Nat} {body body' : Body}

theorem unmodified (swaps : Body.Swaps x y body body') (unmodified : body.Unmodified) : body'.Unmodified := by
  cases swaps <;> exact unmodified

theorem toll (swaps : Body.Swaps x y body body') (price : Nat) : body'.toll price = body.toll price := by
  cases swaps with
  | item => simp [Body.toll]
  | @value head declared renamed modification => cases modification <;> rfl

end Body.Swaps

namespace Store

variable {b : Bounds} {g : Nat → Nat} {s t u : Store}

/-- The generations of old nodes, and one for all that are new. -/
def extended (g : Nat → Nat) (size generation : Nat) (x : Nat) : Nat := if x < size then g x else generation

theorem extended_old {size generation x : Nat} (old : x < size) : extended g size generation x = g x := if_pos old

theorem extended_new {size generation x : Nat} (new : ¬ x < size) : extended g size generation x = generation := if_neg new

namespace Graded

/-- A store is still graded with a new tree, of whatever generation that is. -/
theorem sown {r generation price n : Nat} (graded : s.Graded b g) (sprouts : s.Sprouts t [r]) (sown : s.Sown price t [r] n)
    (top : t.kind r ≠ .entry) : t.Graded b (extended g s.nodes.size generation) := by
  have grows := sprouts.grows
  have kind_old {x : Nat} (old : x < s.nodes.size) : t.kind x = s.kind x := by rw [Store.kind,grows.old x old]; rfl
  exact {
    form := sprouts.form
    seats := by
      intro c id place
      by_cases old : c < s.nodes.size
      · rw [Store.below,grows.old c old] at place
        rw [Live,grows.old id (graded.form.listed c id place)]
        exact graded.seats c id place
      · refine (sprouts.form.seats c id place).resolve_left fun lost => ?_
        obtain ⟨m,member,gone⟩ := lost
        by_cases early : m < s.nodes.size
        · rw [Store.entries,grows.old m early] at member
          exact old (graded.form.listed m c (mem_entries.mp member).2)
        · exact gone (sown.unmodified m (Nat.le_of_not_lt early)).2
    homes := by
      intro id kind
      by_cases old : id < s.nodes.size
      · obtain ⟨m,parent,mapping⟩ := graded.homes id ((kind_old old).symm.trans kind)
        exact ⟨m,by rw [grows.old id old]; exact parent,(kind_old (old_of_mapping mapping)).trans mapping⟩
      · refine (sown.entries id (Nat.le_of_not_lt old) kind).resolve_left fun member => ?_
        exact top (List.mem_singleton.mp member ▸ kind)
    unmodified := by
      intro id
      by_cases old : id < s.nodes.size
      · rw [grows.old id old]
        exact graded.unmodified id
      · exact (sown.unmodified id (Nat.le_of_not_lt old)).1
    root := by
      intro id bound
      by_cases old : id < s.nodes.size
      · rw [grows.old id old] at bound
        exact (extended_old old).trans (graded.root id bound)
      · rw [(grows.unbegun id (Nat.le_of_not_lt old)).unbound] at bound
        cases bound
    replaced := by
      intro x y next
      by_cases old : x < s.nodes.size
      · rw [grows.old x old] at next
        rw [extended_old old,extended_old (graded.form.known x y (.inl next))]
        exact graded.replaced x y next
      · rw [(sown.unmodified x (Nat.le_of_not_lt old)).2] at next
        cases next
    parent := by
      intro x p parent
      by_cases old : x < s.nodes.size
      · rw [grows.old x old] at parent
        rw [extended_old old,extended_old (graded.form.known x p (.inr parent))]
        exact graded.parent x p parent
      · rw [extended_new old,extended_new (Nat.not_lt_of_le (sown.within x p (Nat.le_of_not_lt old) parent))]
        exact Nat.le_succ _
    entry := by
      intro e m parent kind
      by_cases old : e < s.nodes.size
      · rw [grows.old e old] at parent
        rw [extended_old old,extended_old (graded.form.known e m (.inr parent))]
        exact graded.entry e m parent ((kind_old old).symm.trans kind)
      · rw [extended_new old,extended_new (Nat.not_lt_of_le (sown.within e m (Nat.le_of_not_lt old) parent))]
    overrides := by
      rw [grows.session]
      exact graded.overrides }

/-- A store is still graded when a new tree takes a place that its generation befits. -/
theorem grafted {n r p : Nat} (graded : s.Graded b g) (fit : WellFormed.Fit s n r) (grafted : s.Grafted t n r)
    (unlisted : ∀ c, r ∉ s.below c) (top : s.kind r ≠ .entry) (parent : (s.node n).parent = some p) (later : g n ≤ g r)
    (next : g r ≤ g p + 1) : t.Graded b g where
  form := graded.form.graft fit grafted
  seats := by
    intro c id place
    have stays {x : Nat} (place : x ∈ s.below c) (differ : x ≠ n) : (t.node x).parent = some c ∧ t.Live x := by
      obtain ⟨parent,live⟩ := graded.seats c x place
      exact ⟨(grafted.parent x fun same => unlisted c (same ▸ place)).trans parent,grafted.live_other live differ⟩
    by_cases there : (s.node n).parent = some c
    · rw [grafted.taken c there] at place
      obtain ⟨x,member,rfl⟩ := List.mem_map.mp place
      split
      · exact ⟨grafted.moved.trans there,grafted.live_other fit.fresh fit.differ⟩
      · next differ => exact stays member differ
    · rw [grafted.below c there] at place
      exact stays place fun same => there (same ▸ (graded.seats c id place).1)
  homes := by
    intro id kind
    rw [grafted.kind] at kind
    obtain ⟨m,home,mapping⟩ := graded.homes id kind
    exact ⟨m,(grafted.parent id fun same => top (same ▸ kind)).trans home,(grafted.kind m).trans mapping⟩
  unmodified := by
    intro id
    rcases grafted.bodies id with same | swaps
    · exact same ▸ graded.unmodified id
    · exact swaps.unmodified (graded.unmodified id)
  root := by
    intro id bound
    have unbound : (s.node n).isBound = false := Bool.eq_false_iff.mpr fun bound => by
      rw [(graded.form.bound n bound).2.2] at parent
      cases parent
    exact graded.root id ((grafted.kept unbound).2 id ▸ bound)
  replaced := by
    intro x y taken
    by_cases same : x = n
    · rw [same,grafted.replaced] at taken
      exact same ▸ Option.some.inj taken ▸ later
    · exact graded.replaced x y (grafted.others x same ▸ taken)
  parent := by
    intro x q above
    by_cases same : x = r
    · rw [same,grafted.moved,parent] at above
      exact same ▸ Option.some.inj above ▸ next
    · exact graded.parent x q (grafted.parent x same ▸ above)
  entry := by
    intro e m above kind
    rw [grafted.kind] at kind
    exact graded.entry e m (grafted.parent e (fun same => top (same ▸ kind)) ▸ above) kind
  overrides := by
    rw [grafted.overrides]
    exact graded.overrides

end Graded

/-- What a new tree costs. -/
theorem Sown.cost_le {r generation n : Nat} (sown : s.Sown (b.price (b.reach - generation)) t [r] n) (sprouts : s.Sprouts t [r]) :
    t.cost b (extended g s.nodes.size generation) ≤ s.cost b g + n * (b.price (b.reach - generation) + 3) := by
  have early : ∑ x ∈ Finset.range s.nodes.size, (t.node x).toll (b.price (b.reach - extended g s.nodes.size generation x)) =
      s.cost b g := Finset.sum_congr rfl fun x member => by
    have old := Finset.mem_range.mp member
    rw [sprouts.grows.old x old,extended_old old]
  have late : ∑ x ∈ Finset.Ico s.nodes.size t.nodes.size,
      (t.node x).toll (b.price (b.reach - extended g s.nodes.size generation x)) =
        ∑ x ∈ Finset.Ico s.nodes.size t.nodes.size, (t.node x).toll (b.price (b.reach - generation)) :=
    Finset.sum_congr rfl fun x member => by rw [extended_new (Nat.not_lt_of_le (Finset.mem_Ico.mp member).1)]
  have toll := sown.toll
  rw [cost,← Finset.sum_range_add_sum_Ico _ sown.grows,early,late]
  omega

/-- To put a node in a place costs nothing. -/
theorem Grafted.cost_le {n r : Nat} (grafted : s.Grafted t n r) : t.cost b g ≤ s.cost b g := by
  rw [cost,cost,grafted.size]
  refine Finset.sum_le_sum fun x _ => Nat.le_of_eq ?_
  rw [Node.toll,Node.toll,grafted.resolution]
  rcases grafted.bodies x with same | swaps
  · rw [same]
  · rw [swaps.toll]

/-! ## Overrides -/

/-- Overrides in places have raised what is left to do by no more than so much, and old nodes are of the generations
they were. -/
structure Raised (b : Bounds) (g g' : Nat → Nat) (s t : Store) (places : List Nat) (price : Nat) : Prop extends Stays s t where
  graded : t.Graded b g'
  generations : ∀ x, x < s.nodes.size → g' x = g x
  cost : t.cost b g' ≤ s.cost b g + price
  others : ∀ x, x < s.nodes.size → x ∉ places → (t.node x).parent = (s.node x).parent ∧ (s.Live x → t.Live x)

namespace Raised

variable {g' g'' : Nat → Nat} {places places' : List Nat} {price price' : Nat}

theorem of_eased (graded : s.Graded b g) (eased : s.Eased t) : Raised b g g s t places price where
  graded := eased.graded graded
  generations _ _ := rfl
  cost := Nat.le_trans eased.cost_le (Nat.le_add_right _ _)
  toStays := eased.linked.shaped.stays
  others x _ _ := ⟨(eased.node x).parent,(eased.linked.shaped.live x).mpr⟩

theorem trans (first : Raised b g g' s t places price) (second : Raised b g' g'' t u places' price') :
    Raised b g g'' s u (places ++ places') (price + price') where
  graded := second.graded
  generations x old := (second.generations x (Nat.lt_of_lt_of_le old first.grows)).trans (first.generations x old)
  cost := by
    have one := first.cost
    have two := second.cost
    omega
  toStays := first.toStays.trans second.toStays
  others x old apart := by
    obtain ⟨apart,apart'⟩ := not_or.mp (mt List.mem_append.mpr apart)
    obtain ⟨parent,live⟩ := first.others x old apart
    obtain ⟨parent',live'⟩ := second.others x (Nat.lt_of_lt_of_le old first.grows) apart'
    exact ⟨parent'.trans parent,fun here => live' (live here)⟩

theorem mono (raised : Raised b g g' s t places price) (among : places ⊆ places') (le : price ≤ price') :
    Raised b g g' s t places' price' :=
  ⟨raised.toStays,raised.graded,raised.generations,Nat.le_trans raised.cost (Nat.add_le_add_left le _),
    fun x old apart => raised.others x old fun member => apart (among member)⟩

theorem after_eased (eased : s.Eased t) (graded : s.Graded b g) (raised : Raised b g g' t u places price) :
    Raised b g g' s u places price := by
  have first : Raised b g g s t [] 0 := of_eased graded eased
  have both := first.trans raised
  rwa [List.nil_append,Nat.zero_add] at both

theorem eased (raised : Raised b g g' s t places price) (eased : t.Eased u) : Raised b g g' s u places price := by
  have last : Raised b g' g' t u [] 0 := of_eased raised.graded eased
  have both := raised.trans last
  rwa [List.append_nil] at both

/-- A new tree that takes a place of its generation raises nothing. -/
theorem placed {x p r : Nat} (raised : Raised b g g' s t [] price) (live : s.Live x) (parent : (s.node x).parent = some p)
    (aside : t.Aside s.nodes.size r) (top : t.kind r ≠ .entry) (later : g' x ≤ g' r) (next : g' r ≤ g' p + 1) :
    Leads (replaceWith x r) t fun u => Raised b g g' s u [x] price := by
  have old : x < s.nodes.size := old_of_up (.inr parent)
  obtain ⟨parent',live'⟩ := raised.others x old List.not_mem_nil
  have fit := aside.fit old (live' live)
  have here : t.current x = x := current_of_live (live' live)
  have apart {y : Nat} (known : y < s.nodes.size) : y ≠ r := fun same => Nat.not_le_of_lt known (same ▸ aside.new)
  obtain ⟨result,u,put⟩ := replaceWith_ends x r t
  refine ⟨result,u,put,?_⟩
  rcases Upkeep.replaceWith_grafted raised.graded.form (here.symm ▸ Nat.lt_of_lt_of_le old raised.grows) (here.symm ▸ fit) put with
    alike | ⟨v,grafted,alike⟩
  · exact (raised.eased (.of_alike alike)).mono (List.nil_subset _) (Nat.le_refl _)
  · rw [here] at grafted
    have raised' : Raised b g g' s v [x] price := {
      graded := raised.graded.grafted fit grafted aside.loose.unlisted top (parent'.trans parent) later next
      generations := raised.generations
      cost := Nat.le_trans grafted.cost_le raised.cost
      toStays := raised.toStays.trans grafted.stays
      others := fun y known differ => by
        obtain ⟨kept,lives⟩ := raised.others y known List.not_mem_nil
        exact ⟨(grafted.parent y (apart known)).trans kept,
          fun here => grafted.live_other (lives here) fun same => differ (List.mem_singleton.mpr same)⟩ }
    exact raised'.eased (.of_alike alike)

end Raised

theorem build_ok {raw : Value} {path : Text} {r : NodeId} (run : Runs (build raw path) s (.ok r) t) :
    ∃ c, Content.ofValue path raw = .ok c ∧ Runs (plant c) s (.ok r) t := by
  rw [build] at run
  cases read : Content.ofValue path raw with
  | error cause =>
    rw [read] at run
    obtain ⟨_,_,impossible,_⟩ := Runs.bind_ok run
    exact absurd impossible throwCause_fails
  | ok c =>
    rw [read] at run
    exact ⟨c,rfl,run⟩

theorem build_ends (form : s.WellFormed) (raw : Value) (path : Text) : ∃ r t, Runs (build raw path) s r t := by
  rw [build]
  cases read : Content.ofValue path raw with
  | error cause =>
    have thrown : Ends (throwCause cause : StoreM Content) := (Quiet.throwCause cause).judged
    exact Runs.bind_ends (thrown s) fun _ _ run => absurd run throwCause_fails
  | ok c =>
    obtain ⟨id,t,run,_⟩ := plant_sprouts c (Content.ofValue_distinct raw read) form
    exact ⟨_,t,run⟩

namespace Graded

variable (graded : s.Graded b g)
include graded

/-- A tree that is built from the value of an override costs the price of a place, if it is of the generation after that
of the place. -/
theorem built {r generation : Nat} {o : Override} (listed : o ∈ s.session.overrides) (reached : generation < b.reach)
    (run : Runs (build o.value o.target) s (.ok r) t) :
    s.Sprouts t [r] ∧ t.kind r ≠ .entry ∧
      Raised b g (extended g s.nodes.size (generation + 1)) s t [] (b.price (b.reach - generation)) := by
  obtain ⟨c,read,planted⟩ := build_ok run
  obtain ⟨small,unmodified⟩ := (graded.overrides o listed).small c read
  have distinct := Content.ofValue_distinct o.value read
  obtain ⟨r',t',run',sprouts⟩ := plant_sprouts c distinct graded.form
  obtain ⟨same,rfl⟩ := Runs.unique planted run'
  obtain rfl := Except.ok.inj same
  obtain ⟨sown,top⟩ := plant_sown (b.price (b.reach - (generation + 1))) c distinct unmodified graded.form planted
  refine ⟨sprouts,top,{
    graded := graded.sown sprouts sown top
    generations := fun y old => extended_old old
    cost := ?_
    toStays := sprouts.grows.stays
    others := fun y old _ => by
      rw [Live,Live,sprouts.grows.old y old]
      exact ⟨rfl,fun live => live⟩ }⟩
  have next : b.reach - generation = b.reach - (generation + 1) + 1 := by omega
  have price : b.price (b.reach - generation) = b.bulk * (b.price (b.reach - (generation + 1)) + 3) := by
    rw [next]
    rfl
  calc t.cost b (extended g s.nodes.size (generation + 1))
    _ ≤ s.cost b g + c.size * (b.price (b.reach - (generation + 1)) + 3) := sown.cost_le sprouts
    _ ≤ s.cost b g + b.price (b.reach - generation) := by
      rw [price]
      exact Nat.add_le_add_left (Nat.mul_le_mul_right _ small) _

/-- An override in a place costs the price of the place. -/
theorem override {x p : Nat} {o : Override} (live : s.Live x) (parent : (s.node x).parent = some p)
    (listed : o ∈ s.session.overrides) (reached : g p < b.reach) :
    Leads (StoreM.override x o.target o.value) s fun t => ∃ g', Raised b g g' s t [x] (b.price (b.reach - g p)) := by
  refine Leads.after getNode_run ?_
  split
  · next raw previous literal body _ =>
    have eased : s.Eased (s.update x fun n => { n with body := .scalar raw (some literal) }) := .update <|
      .of_body (by rw [body]; rfl) (by rw [body]; rfl) (by rw [body]; rfl) (fun _ => trivial) fun price => Nat.zero_le _
    exact Leads.after modifyNode_run (Leads.after modifyNode_run ⟨_,_,Runs.ok _ _,g,
      .of_eased graded (eased.trans (.update (.of_same rfl rfl rfl rfl rfl)))⟩)
  · refine Leads.followed (build_ends graded.form _ _) (fun e t run => ?_) fun r t run => ?_
    · rcases Upkeep.build_makes _ _ _ t graded.form run with ⟨_,alike⟩ | ⟨_,impossible,_⟩
      · exact ⟨g,.of_eased graded (.of_alike alike)⟩
      · cases impossible
    obtain ⟨sprouts,top,raised⟩ := graded.built listed reached run
    have marked : t.Eased (t.update r fun n => { n with isOverridden := true }) :=
      .update (.of_same rfl rfl rfl rfl rfl)
    have new := (sprouts.loose r (List.mem_singleton.mpr rfl)).2
    have old := old_of_up (.inr parent)
    refine Leads.after modifyNode_run (((raised.eased marked).placed live parent
      ((sprouts.aside graded.form).linked marked.linked) ?top ?later ?next).mono fun u raised => ⟨_,raised⟩)
    case top =>
      rw [marked.linked.shaped.kind]
      exact top
    case later =>
      rw [extended_old old,extended_new (Nat.not_lt_of_le new)]
      exact graded.parent x p parent
    case next =>
      rw [extended_new (Nat.not_lt_of_le new),extended_old (graded.form.known x p (.inr parent))]

/-- The override of a place, if there is one, costs the price of the place. -/
theorem applyOverride {x p : Nat} (live : s.Live x) (parent : (s.node x).parent = some p) :
    Leads (StoreM.applyOverride x) s fun t => ∃ g', Raised b g g' s t [x] (b.price (b.reach - g p)) := by
  have here : s.current x = x := current_of_live live
  refine Leads.after current_run ?_
  rw [here]
  refine Leads.followed (Upkeep.requireSession_ends graded.form x) (fun e t run => ?_) fun _ t run => ?_
  · exact ⟨g,.of_eased graded (.of_alike (Still.requireSession x s _ t trivial run).2)⟩
  obtain ⟨rfl,attached⟩ := Upkeep.requireSession_ok run
  obtain ⟨name,named⟩ := graded.form.name x
  have found : Runs (nameOf x) t (.ok name) t := get_run.bind (by rw [named]; exact Runs.ok _ _)
  refine Leads.after found ?_
  cases known : t.session.overrides.find? fun o => o.target == name with
  | none =>
    have taken : Runs (takeOverride name) t (.ok none) t := getSession_run.bind (by rw [known]; exact Runs.ok _ _)
    exact Leads.after taken ⟨_,t,Runs.ok _ _,g,.of_eased graded (.of_alike (.refl t))⟩
  | some o =>
    have listed := List.mem_of_find?_eq_some known
    have target : o.target = name := by simpa using List.find?_some known
    obtain ⟨used,used_eq⟩ : ∃ used, used = t.session.overrides.map fun o =>
      if o.target == name then { o with uses := o.uses + 1 } else o := ⟨_,rfl⟩
    have taken : Runs (takeOverride name) t (.ok (some o.value)) (t.inSession fun session => { session with overrides := used }) :=
      getSession_run.bind (by
        rw [known,used_eq]
        exact modifySession_run.bind (Runs.ok _ _))
    have eased : t.Eased (t.inSession fun session => { session with overrides := used }) := .inSession rfl fun o member => by
      obtain ⟨o',listed,same⟩ := List.mem_map.mp (used_eq ▸ member)
      refine ⟨o',listed,?_⟩
      rw [← same]
      split <;> exact ⟨rfl,rfl⟩
    have counted : { o with uses := o.uses + 1 } ∈ used := by
      rw [used_eq]
      exact List.mem_map.mpr ⟨o,listed,if_pos (by simp [target])⟩
    have reached := graded.lt_reach attached (here.symm ▸ parent) named listed target
    refine Leads.after taken (Leads.mono (target ▸ (eased.graded graded).override live parent counted reached) fun u => ?_)
    rintro ⟨g',raised⟩
    exact ⟨g',raised.after_eased eased graded⟩

omit graded in
/-- The overrides of places of one container cost the price of a place for each of them. -/
theorem applyOverrides {p : Nat} (items : List Nat) (graded : s.Graded b g) (distinct : items.Nodup)
    (places : ∀ x ∈ items, s.Live x ∧ (s.node x).parent = some p) :
    Leads (items.forM fun item => discard (StoreM.applyOverride item)) s fun t =>
      ∃ g', Raised b g g' s t items (items.length * b.price (b.reach - g p)) := by
  induction items generalizing s g with
  | nil => exact ⟨_,s,Runs.ok _ _,g,.of_eased graded (.of_alike (.refl s))⟩
  | cons x rest ih =>
    obtain ⟨stranger,distinct⟩ := List.nodup_cons.mp distinct
    obtain ⟨live,parent⟩ := places x List.mem_cons_self
    obtain ⟨r,t,run,g',raised⟩ := graded.applyOverride live parent
    rw [Runs.forM_cons,List.length_cons,Nat.succ_mul,Nat.add_comm]
    cases r with
    | error e =>
      exact ⟨_,t,run.map_error.bind_error,g',raised.mono (by simp) (Nat.le_add_right _ _)⟩
    | ok v =>
      refine Leads.after run.map_ok ((ih raised.graded distinct fun y member => ?_).mono fun u => ?_)
      · obtain ⟨live,above⟩ := places y (List.mem_cons_of_mem _ member)
        obtain ⟨kept,lives⟩ := raised.others y (old_of_up (.inr above)) fun same =>
          stranger (List.mem_singleton.mp same ▸ member)
        exact ⟨lives live,kept.trans above⟩
      · rintro ⟨g'',further⟩
        rw [raised.generations p (graded.form.known x p (.inr parent))] at further
        exact ⟨g'',raised.trans further⟩

end Graded

end Store
end ConfTree
