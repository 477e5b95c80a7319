import ConfTree.Proofs.WellFormed.Aside

/-!
Upkeep. The work on a tree keeps it well formed, unless it moves nodes that are in use: what it puts in a place
is new, and stands aside until then (`Store.Aside`). Nor does it leave anything behind that is being worked on
(`Store.Kept`).
-/
namespace ConfTree

open StoreM

namespace Store

variable {s t u : Store}

/-- What there was is there still, of the same kind, and nothing is being worked on that was not before. -/
structure Kept (s t : Store) : Prop extends Stays s t where
  rooted : (t.node t.session.root).isBound = (s.node s.session.root).isBound
  resolution : ∀ id, (t.node id).resolution = .active → (s.node id).resolution = .active
  modification : ∀ id, (t.node id).body.modification? = some .active → (s.node id).body.modification? = some .active

namespace Kept

theorem refl (s : Store) : s.Kept s := ⟨.refl s,rfl,fun _ active => active,fun _ active => active⟩

theorem trans (first : s.Kept t) (second : t.Kept u) : s.Kept u where
  toStays := first.toStays.trans second.toStays
  rooted := second.rooted.trans first.rooted
  resolution id active := first.resolution id (second.resolution id active)
  modification id active := first.modification id (second.modification id active)

end Kept

theorem Grows.stays (grows : s.Grows t) : s.Stays t := ⟨grows.grows,fun id old => by rw [Store.kind,Store.kind,grows.old id old]⟩

theorem Grows.kept (grows : s.Grows t) : s.Kept t where
  toStays := grows.stays
  rooted := by
    rw [grows.session]
    by_cases old : s.session.root < s.nodes.size
    · rw [grows.old _ old]
    · rw [(grows.unbegun _ (Nat.le_of_not_lt old)).unbound,node_of_size_le (Nat.le_of_not_lt old)]
      rfl
  resolution id active := by
    by_cases old : id < s.nodes.size
    · rwa [grows.old id old] at active
    · rw [(grows.unbegun id (Nat.le_of_not_lt old)).resolution] at active
      cases active
  modification id active := by
    by_cases old : id < s.nodes.size
    · rwa [grows.old id old] at active
    · exact absurd active (grows.unbegun id (Nat.le_of_not_lt old)).modification

theorem WellFormed.graft_kept (form : s.WellFormed) {n r : Nat} (grafted : s.Grafted t n r) : s.Kept t where
  toStays := grafted.stays
  rooted := by
    cases crown : (s.node n).isBound with
    | false =>
      obtain ⟨root,same⟩ := grafted.kept crown
      rw [root,same]
    | true =>
      obtain ⟨root,_,taken,_⟩ := grafted.crowned crown
      rw [root,taken,← (form.bound n crown).1,crown]
  resolution id active := (grafted.resolution id).symm.trans active
  modification id active := (grafted.modification id).symm.trans active

end Store

/-- The discipline of keeping trees well formed. -/
def Discipline.upkeep : Discipline where
  Fits := Store.WellFormed
  Reaches := Store.Kept
  refl := .refl
  trans _ _ _ := .trans
  alike s t alike form := ⟨form.linked (.of_alike alike),{
    toStays := (Store.Linked.of_alike alike).shaped.stays
    rooted := (Store.Linked.of_alike alike).rooted
    resolution := fun id active => by rwa [alike.node] at active
    modification := fun id active => by rwa [alike.node] at active }⟩

namespace Upkeep

open Discipline

variable {s t u : Store}

/-- What may be noted at any time keeps the tree well formed. -/
theorem noted {id : Nat} {f : Node → Node} (form : s.WellFormed) (akin : (s.node id).Akin (f (s.node id))) :
    (s.update id f).WellFormed ∧ s.Kept (s.update id f) := by
  have linked : s.Linked (s.update id f) := .update akin.linked
  have each (other : Nat) : (s.node other).Akin ((s.update id f).node other) := by
    rw [Store.node_update]
    split
    · next same => exact same.1 ▸ akin
    · exact ⟨rfl,rfl,rfl,rfl,rfl,List.prefix_rfl⟩
  exact ⟨form.linked linked,{
    toStays := linked.shaped.stays
    rooted := linked.rooted
    resolution := fun other active => (each other).resolution.symm.trans active
    modification := fun other active => (each other).modification.symm.trans active }⟩

/-- What concerns neither nodes nor the root keeps the tree well formed. -/
theorem inSession {f : Session → Session} (form : s.WellFormed) (root : (f s.session).root = s.session.root) :
    (s.inSession f).WellFormed ∧ s.Kept (s.inSession f) :=
  have linked : s.Linked (s.inSession f) := .inSession root
  ⟨form.linked linked,linked.shaped.stays,linked.rooted,fun _ active => active,fun _ active => active⟩

/-! ## Replacing -/

/-- Where a node is put in a place that it fits, it is grafted there; or it is refused. -/
theorem replaceWith_grafted {id r : Nat} {result : Except Thrown NodeId} (form : s.WellFormed) (old : s.current id < s.nodes.size)
    (fit : Store.WellFormed.Fit s (s.current id) r) (run : Runs (replaceWith id r) s result t) :
    s.Alike t ∨ ∃ u, s.Grafted u (s.current id) r ∧ u.Alike t := by
  rcases replaceWith_inv run with ⟨same,_⟩ | ⟨_,alike⟩ | ⟨u,replaced,alike,_⟩
  · exact absurd same fit.differ
  · exact .inl alike
  · exact .inr ⟨u,form.grafted old fit replaced,alike⟩

theorem replaceWith_keeps {id r : Nat} (old : s.current id < s.nodes.size) (fit : s.WellFormed → Store.WellFormed.Fit s (s.current id) r) :
    upkeep.KeepsAt s (replaceWith id r) := by
  intro result t form run
  rcases replaceWith_grafted form old (fit form) run with alike | ⟨u,grafted,alike⟩
  · exact upkeep.alike s t alike form
  · have step := upkeep.alike u t alike (form.graft (fit form) grafted)
    exact ⟨step.1,(form.graft_kept grafted).trans step.2⟩

/-! ## Making -/

/-- Whatever becomes of the action, it only adds a tree that stands alone, or throws. -/
def Makes (make : StoreM NodeId) (s : Store) : Prop :=
  ∀ result t, s.WellFormed → Runs make s result t → (∃ e, result = .error e) ∧ s.Alike t ∨ ∃ r, result = .ok r ∧ s.Sprouts t [r]

theorem makes_of_run {make : StoreM NodeId} (made : s.WellFormed → ∃ r t, Runs make s (.ok r) t ∧ s.Sprouts t [r]) :
    Makes make s := by
  intro result t form run
  obtain ⟨r,t',run',sprouts⟩ := made form
  obtain ⟨rfl,rfl⟩ := Runs.unique run' run
  exact .inr ⟨r,rfl,sprouts⟩

theorem build_makes (raw : Value) (path : Text) : Makes (build raw path) s := by
  rw [build]
  cases read : Content.ofValue path raw with
  | error cause => exact fun _ _ _ run => .inl ((Refuses.throwCause cause).first _ |>.run run)
  | ok c => exact makes_of_run fun form => plant_sprouts c (Content.ofValue_distinct raw read) form

theorem copy_makes (id : NodeId) : Makes (copy id) s := by
  refine makes_of_run fun form => ?_
  obtain ⟨value,t,run,sprouts⟩ := plant_sprouts (s.content id) (form.content_distinct id) form
  cases body : (s.node id).body with
  | entry head => exact ⟨_,_,get_run.bind (run.bind (by rw [body]; exact newEntry_run head value t)),sprouts.entry head⟩
  | _ => exact ⟨_,_,get_run.bind (run.bind (by rw [body]; exact Runs.ok _ _)),sprouts⟩

theorem overlay_makes {own : Nat} (base : NodeId) (mapping : s.kind own = .mapping) : Makes (do plant (Modify.overlay (← get) own base)) s :=
  makes_of_run fun form => by
    obtain ⟨r,t,run,sprouts⟩ := plant_sprouts _ (form.overlay_distinct base mapping) form
    exact ⟨r,t,get_run.bind run,sprouts⟩

theorem Makes.keeps {make : StoreM NodeId} (makes : Makes make s) : upkeep.KeepsAt s make := by
  intro result t form run
  rcases makes result t form run with ⟨_,alike⟩ | ⟨r,_,sprouts⟩
  · exact upkeep.alike s t alike form
  · exact ⟨sprouts.form,sprouts.grows.kept⟩

/-- The discipline of keeping trees well formed, and a new one aside. -/
def aside (k r : Nat) : Discipline where
  Fits s := s.WellFormed ∧ s.Aside k r
  Reaches := Store.Kept
  refl := .refl
  trans _ _ _ := .trans
  alike s t alike fits := ⟨⟨(upkeep.alike s t alike fits.1).1,fits.2.linked (.of_alike alike)⟩,(upkeep.alike s t alike fits.1).2⟩

theorem aside_noted {k r id : Nat} {f : Node → Node} (akin : ∀ n : Node, n.Akin (f n)) : (aside k r).Keeps (modifyNode id f) := by
  intro s result t fits run
  obtain ⟨_,rfl⟩ := Runs.unique modifyNode_run run
  have step := noted fits.1 (akin (s.node id))
  exact ⟨⟨step.1,fits.2.linked (.update (akin _).linked)⟩,step.2⟩

/-- A tree stands aside still when a newer one was put in a place of it. -/
theorem aside_replaceWith {k r k' r' d : Nat} (newer : s.Aside k' r') (old : d < k') (live : s.Live d) (new : k ≤ d) (differ : d ≠ r)
    (between : r < k') : (aside k r).KeepsAt s (replaceWith d r') := by
  intro result t fits run
  obtain ⟨form,aside'⟩ := fits
  have fit := newer.fit old live
  have here : s.current d = d := Store.current_of_live live
  have known : d < s.nodes.size := Nat.lt_of_lt_of_le old (Nat.le_trans newer.new (Nat.le_of_lt newer.loose.known))
  rcases replaceWith_grafted form (by rwa [here]) (by rwa [here]) run with alike | ⟨u,grafted,alike⟩
  · exact (aside k r).alike s t alike ⟨form,aside'⟩
  · rw [here] at grafted
    have still := aside'.graft grafted fit differ.symm (Nat.ne_of_lt (Nat.lt_of_lt_of_le between newer.new)) new
      (Nat.le_trans new (Nat.le_of_lt (Nat.lt_of_lt_of_le old newer.new)))
    have step := (aside k r).alike u t alike ⟨form.graft fit grafted,still⟩
    exact ⟨step.1,(form.graft_kept grafted).trans step.2⟩

/-- A value put at a path of a new tree leaves that aside. -/
theorem aside_setVariable {k r : Nat} (unit path : Text) (raw : Value) : (aside k r).Keeps (Modify.setVariable unit r path raw) := by
  intro s
  refine KeepsAt.after get_run ?_
  split
  · exact (Quiet.throwCause _).keeps s
  · next d found =>
    intro result u fits run
    obtain ⟨new,differ,known,live⟩ := fits.2.declaredNode? fits.1 found
    rcases Runs.bind_inv run with ⟨r',t,made,rest⟩ | ⟨e,failed,_⟩
    · rcases build_makes raw path _ t fits.1 made with ⟨⟨e,impossible⟩,_⟩ | ⟨_,same,sprouts⟩
      · cases impossible
      · obtain rfl := Except.ok.inj same
        have live : t.Live d := by rw [Store.Live,sprouts.grows.old d known]; exact live
        have put := (aside_replaceWith (sprouts.aside fits.1) known live new differ fits.2.loose.known).map
          (g := fun _ => ()) _ u ⟨sprouts.form,fits.2.grows sprouts.grows⟩ rest
        exact ⟨put.1,sprouts.grows.kept.trans put.2⟩
    · rcases build_makes raw path _ u fits.1 failed with ⟨_,alike⟩ | ⟨_,impossible,_⟩
      · exact (aside k r).alike s u alike fits
      · cases impossible

/-- What is made, and worked on aside, is put in a place. -/
theorem Makes.placed {make : StoreM NodeId} {work : NodeId → StoreM Unit} {n : Nat} (makes : Makes make s) (old : n < s.nodes.size)
    (works : ∀ k r, (aside k r).Keeps (work r)) : upkeep.KeepsAt s (do
      let r ← make
      work r
      replaceWith n r) := by
  intro result u form run
  rcases Runs.bind_inv run with ⟨r,t,made,rest⟩ | ⟨e,failed,rfl⟩
  · rcases makes _ t form made with ⟨⟨_,impossible⟩,_⟩ | ⟨_,same,sprouts⟩
    · cases impossible
    · obtain rfl := Except.ok.inj same
      have fits : (aside s.nodes.size r).Fits t := ⟨sprouts.form,sprouts.aside form⟩
      rcases Runs.bind_inv rest with ⟨_,w,worked,put⟩ | ⟨e,failed,rfl⟩
      · obtain ⟨⟨form',aside'⟩,kept⟩ := works _ r t _ w fits worked
        have below := aside'.current_old old
        have known : w.current n < w.nodes.size := Nat.lt_of_lt_of_le below (Nat.le_trans aside'.new (Nat.le_of_lt aside'.loose.known))
        have step := replaceWith_keeps known (fun form => aside'.fit below (form.current_live n)) result u form' put
        exact ⟨step.1,(sprouts.grows.kept.trans kept).trans step.2⟩
      · obtain ⟨⟨form',_⟩,kept⟩ := works _ r t _ u fits failed
        exact ⟨form',sprouts.grows.kept.trans kept⟩
  · exact makes.keeps _ u form failed

theorem Makes.put {make : StoreM NodeId} {n : Nat} (makes : Makes make s) (old : n < s.nodes.size) :
    upkeep.KeepsAt s (do replaceWith n (← make)) := by
  have idle (k r : Nat) : (aside k r).Keeps (Pure.pure () : StoreM Unit) := .pure _
  simpa only [pure_bind] using makes.placed old idle

/-! ## Edits -/

theorem template_keeps (name : Text) : upkeep.Keeps (template name) := by
  have loaded : upkeep.Keeps (loadTemplate name) := Quiet.getSession.keeps.bind fun session => by
    split
    · exact (Quiet.throwCause _).keeps
    · split
      · exact (Quiet.throwFailure _).keeps
      · refine Keeps.bind (fun s => (build_makes _ _).keeps) fun _ => Keeps.bind (fun s r t form run => ?_) fun _ => .pure _
        obtain ⟨_,rfl⟩ := Runs.unique modifySession_run run
        exact inSession form rfl
  refine (Quiet.orThrow _).keeps.map.bind fun _ => Quiet.getSession.keeps.bind fun session => ?_
  split
  · exact .pure _
  · exact loaded

theorem override_keeps {node : Nat} (name : Text) (v : Value) (old : node < s.nodes.size) : upkeep.KeepsAt s (override node name v) := by
  refine KeepsAt.after getNode_run ?_
  split
  · next raw previous literal body _ =>
    have akin : (s.node node).Akin { s.node node with body := .scalar raw (some literal) } := ⟨by rw [body]; rfl,rfl,rfl,rfl,rfl,List.prefix_rfl⟩
    have written : upkeep.KeepsAt s (modifyBody node fun _ => .scalar raw (some literal)) := by
      intro r t form run
      obtain ⟨_,rfl⟩ := Runs.unique modifyNode_run run
      exact noted form akin
    refine written.bind fun _ => Keeps.bind (fun s r t form run => ?_) fun _ => .pure _
    obtain ⟨_,rfl⟩ := Runs.unique modifyNode_run run
    exact noted form ⟨rfl,rfl,rfl,rfl,rfl,List.prefix_rfl⟩
  · exact (build_makes v name).placed old fun _ _ => aside_noted fun _ => ⟨rfl,rfl,rfl,rfl,rfl,List.prefix_rfl⟩

/-- A value that was not replaced may be promoted. -/
theorem promote_keeps {node : Nat} (live : s.Live node) : upkeep.KeepsAt s (Modify.promote node) := by
  refine KeepsAt.after get_run (KeepsAt.after (get_run.bind (Runs.ok _ _)) ?_)
  dsimp only
  split
  · exact (Quiet.throwCause _).keeps s
  · next m found =>
    obtain ⟨e,found,above⟩ := Option.bind_eq_some_iff.mp found
    obtain ⟨value,entry⟩ := Option.filter_eq_some_iff.mp found
    obtain ⟨above,mapping⟩ := Option.filter_eq_some_iff.mp above
    have put : upkeep.KeepsAt s (replaceWith m node) := fun r t form run =>
      replaceWith_keeps (form.current_old (form.known e m (.inr above)))
        (fun form => form.fit_value live value (beq_iff_eq.mp entry) above (beq_iff_eq.mp mapping)) r t form run
    split
    · exact ((Refuses.throwCause _).first _).still.keeps s
    · exact put

theorem load_keeps {node : Nat} (unit : Text) (vars : Pairs) (old : node < s.nodes.size) : upkeep.KeepsAt s (do
    let instance_ ← instantiate unit
    vars.forM fun (path,raw) => Modify.setVariable unit instance_ path raw
    return some (← replaceWith node instance_)) := by
  have works (k r : Nat) : (aside k r).Keeps (do
      modifyNode r fun n => { n with unit := some unit }
      vars.forM fun (path,raw) => Modify.setVariable unit r path raw) :=
    Keeps.bind (aside_noted fun _ => ⟨rfl,rfl,rfl,rfl,rfl,List.prefix_rfl⟩) fun _ =>
      Keeps.forM vars fun (path,raw) _ => aside_setVariable unit path raw
  have put (t : Store) (old : node < t.nodes.size) (id : NodeId) :=
    ((copy_makes id).placed old works).map (g := some)
  have keeps := (template_keeps unit s).followed fun id t _ reaches => put t (Nat.lt_of_lt_of_le old reaches.grows) id
  simpa only [instantiate,bind_assoc,pure_bind,map_eq_pure_bind] using keeps

/-- The search for the session ends. -/
theorem requireSession_ends (form : s.WellFormed) (id : NodeId) : ∃ r t, Runs (requireSession id) s r t := by
  obtain ⟨top,found⟩ := form.top id
  refine Runs.bind_ends ⟨_,_,get_run⟩ fun s' t run => ?_
  obtain ⟨same,rfl⟩ := Runs.unique run get_run
  obtain rfl := Except.ok.inj same
  rw [found]
  refine Runs.bind_ends ⟨_,_,get_run⟩ fun s'' t run => ?_
  split
  · exact ⟨_,_,Runs.ok _ _⟩
  · exact (show Ends _ from (Quiet.nameOf id).judged.bind fun _ => (Quiet.throwCause _).judged) t

/-- What passes is in the session's tree. -/
theorem requireSession_ok {id : NodeId} (run : Runs (requireSession id) s (.ok ()) t) : t = s ∧ s.isBound id = true := by
  have rest := (Runs.bind_iff get_run).mp run
  split at rest
  · exact absurd rest Runs.unending_iff
  · have rest := (Runs.bind_iff get_run).mp rest
    split at rest
    · next bound => exact ⟨(Runs.pure_iff.mp rest).2,bound⟩
    · obtain ⟨_,_,_,thrown⟩ := Runs.bind_ok rest
      exact absurd thrown throwCause_fails

/-- What stands in the session's tree exists. -/
theorem attached {id : Nat} (run : Runs (requireSession id) s (.ok ()) t) : id < t.nodes.size := by
  obtain ⟨rfl,bound⟩ := requireSession_ok run
  refine Nat.lt_of_not_le fun outside => ?_
  have here : t.node id = default := Store.node_of_size_le outside
  have current : t.current id = id := Store.follow_of_size_le outside _
  have above : t.above? id = none := by
    rw [Store.above?,current,here]
    rfl
  have top : t.top? id = some id := by simp [Store.top?,Store.upTo,above,current]
  rw [Store.isBound,top,Option.any_some,here] at bound
  cases bound

/-! ## What is begun once -/

/-- A failure is noted at its node, since every node has a name. -/
theorem fails_noted {id : Nat} {noted : FaultId → Node → Node} {e : Thrown} (form : s.WellFormed)
    (fails : Resolve.Fails id noted s e t) : ∃ w fault, s.Alike w ∧ t = w.update id (noted fault) := by
  cases fails with
  | located fault before located =>
    exact ⟨_,fault,before.trans ((Quiet.locate fault id).alike located),rfl⟩
  | @lost v _ _ fault before lost =>
    obtain ⟨name,named⟩ := form.name id
    have found : Runs (nameOf id) v (.ok name) v := get_run.bind (by rw [before.name,named]; exact Runs.ok _ _)
    have rest := (Runs.bind_iff kindOf_run).mp ((Runs.bind_iff found).mp lost)
    cases rest

/-- Work on a node within which it was marked, and after which it was marked otherwise. -/
theorem around {id : Nat} {start stop : Node → Node} {s' w : Store} (same : s.Alike s') (starts : ∀ n : Node, n.Linked (start n))
    (inner : ((s'.update id start).entered id).Kept u) (form : u.WellFormed) (alike : u.Alike w) (stops : ∀ n : Node, n.Linked (stop n))
    (resolution : (stop (u.node id)).resolution = .active → (s.node id).resolution = .active)
    (modification : (stop (u.node id)).body.modification? = some .active → (s.node id).body.modification? = some .active) :
    ((w.update id stop).left id).WellFormed ∧ s.Kept ((w.update id stop).left id) := by
  have began : s.Linked ((s'.update id start).entered id) :=
    ((Store.Linked.of_alike same).trans (.update (starts _))).trans (.inSession rfl)
  have ended : u.Linked ((w.update id stop).left id) :=
    ((Store.Linked.of_alike alike).trans (.update (stops _))).trans (.inSession rfl)
  have before (x : Nat) (apart : x ≠ id) : ((s'.update id start).entered id).node x = s.node x := by
    rw [Store.node_entered,Store.node_update_ne apart,same.node]
  have after (x : Nat) (apart : x ≠ id) : ((w.update id stop).left id).node x = u.node x := by
    rw [Store.node_left,Store.node_update_ne apart,alike.node]
  -- a node that does not exist is not being worked on
  have here (old : id < u.nodes.size) : ((w.update id stop).left id).node id = stop (u.node id) := by
    rw [Store.node_left,Store.node_update_self (by rw [alike.nodes]; exact old),alike.node]
  have nowhere (outside : ¬ id < u.nodes.size) : ((w.update id stop).left id).node id = default :=
    Store.node_of_size_le (by rw [ended.size]; exact Nat.le_of_not_lt outside)
  refine ⟨form.linked ended,{
    toStays := began.shaped.stays.trans (inner.toStays.trans ended.shaped.stays)
    rooted := ended.rooted.trans (inner.rooted.trans began.rooted)
    resolution := fun x active => ?_
    modification := fun x active => ?_ }⟩
  · by_cases marked : x = id
    · subst marked
      by_cases old : x < u.nodes.size
      · exact resolution (here old ▸ active)
      · rw [nowhere old] at active
        cases active
    · rw [← before x marked]
      exact inner.resolution x (after x marked ▸ active)
  · by_cases marked : x = id
    · subst marked
      by_cases old : x < u.nodes.size
      · exact modification (here old ▸ active)
      · rw [nowhere old] at active
        cases active
    · rw [← before x marked]
      exact inner.modification x (after x marked ▸ active)

theorem computed_linked (state : Progress Value) (n : Node) : n.Linked (Resolve.computed state n) := ⟨⟨rfl,rfl,rfl,rfl,rfl⟩,rfl⟩

theorem modified_linked (state : Progress Unit) (n : Node) : n.Linked (Resolve.modified state n) := by
  obtain ⟨body⟩ := n
  cases body <;> exact ⟨⟨rfl,rfl,rfl,rfl,rfl⟩,rfl⟩

theorem modified_ended {state : Progress Unit} {n : Node} (ended : state ≠ .active) :
    (Resolve.modified state n).body.modification? ≠ some .active := by
  obtain ⟨body⟩ := n
  cases body with
  | entry => exact fun same => ended (Option.some.inj same)
  | _ => exact nofun

theorem computing_keeps {id : Nat} {value : StoreM Value} (keeps : upkeep.Keeps value) : upkeep.KeepsAt s (Resolve.computing id value) := by
  intro r t form run
  rcases Resolve.computing_inv run with ⟨_,refused⟩ | ⟨s',u,same,_,ran,outcome⟩
  · exact upkeep.alike s t refused form
  have began : s.Linked ((s'.update id (Resolve.computed .active)).entered id) :=
    ((Store.Linked.of_alike same).trans (.update (computed_linked _ _))).trans (.inSession rfl)
  obtain ⟨form',inner⟩ := keeps _ _ u (form.linked began) ran
  have ends (state : Progress Value) (ended : state ≠ .active) {w : Store} (alike : u.Alike w) :=
    around same (computed_linked .active) inner form' alike (computed_linked state) (fun active => absurd active ended) fun active => by
      have inside := inner.modification id active
      rw [Store.node_entered,Store.node_update,same.node] at inside
      split at inside <;> exact inside
  rcases outcome with ⟨v,_,_,rfl⟩ | ⟨e,w,_,fails,rfl⟩
  · exact ends (.done v) nofun (.refl u)
  · obtain ⟨w',fault,alike,rfl⟩ := fails_noted form' fails
    exact ends (.failed fault) nofun alike

theorem modifying_keeps {id : Nat} {declare : StoreM Bool} (keeps : upkeep.Keeps declare) :
    upkeep.KeepsAt s (Resolve.modifying id declare) := by
  intro r t form run
  rcases Resolve.modifying_inv run with ⟨_,refused⟩ | ⟨s',u,same,_,ran,outcome⟩
  · exact upkeep.alike s t refused form
  have began : s.Linked ((s'.update id (Resolve.modified .active)).entered id) :=
    ((Store.Linked.of_alike same).trans (.update (modified_linked _ _))).trans (.inSession rfl)
  obtain ⟨form',inner⟩ := keeps _ _ u (form.linked began) ran
  have ends (state : Progress Unit) (ended : state ≠ .active) {w : Store} (alike : u.Alike w) :=
    around same (modified_linked .active) inner form' alike (modified_linked state) (fun active => by
      have inside := inner.resolution id active
      rw [Store.node_entered,Store.node_update,same.node] at inside
      split at inside <;> exact inside) fun active => absurd active (modified_ended ended)
  rcases outcome with rfl | ⟨e,v,w,_,failing,fails,rfl⟩
  · exact ends (.done ()) nofun (.refl u)
  · rcases failing with rfl | ⟨_,e',unnamed⟩
    · obtain ⟨w',fault,alike,rfl⟩ := fails_noted form' fails
      exact ends (.failed fault) nofun alike
    · have ended : u.Linked (u.update id (Resolve.modified (.done ()))) := .update (modified_linked _ _)
      obtain ⟨name,named⟩ := (form'.linked ended).name id
      have rest := (Runs.bind_iff get_run).mp unnamed
      rw [named] at rest
      cases (Runs.pure_iff.mp rest).1

/-- Well-formed trees bear the work on them. -/
theorem regular : upkeep.Regular fun s id => id < s.nodes.size where
  stays _ _ _ kept old := Nat.lt_of_lt_of_le old kept.grows
  mapping s t id kept mapping := (kept.kind id (Store.old_of_mapping mapping)).trans mapping
  attached _ _ _ := attached
  current _ _ form old := form.current_old old
  parent _ id p form parent := form.known id p (.inr parent)
  noted _ _ _ := noted
  counted _ _ form := inSession form rfl
  overridden _ _ name v := override_keeps name v
  built _ _ raw path := (build_makes raw path).put
  copied _ _ id := (copy_makes id).put
  laid s node base old mapping := by simpa only [bind_assoc] using (overlay_makes base mapping).put old
  loaded _ _ := load_keeps
  computing _ _ _ _ := computing_keeps
  modifying _ _ _ _ := modifying_keeps

end Upkeep
end ConfTree
