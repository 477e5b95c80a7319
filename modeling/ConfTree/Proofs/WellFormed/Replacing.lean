import ConfTree.Proofs.Discipline.Work
import ConfTree.Proofs.Edits
import ConfTree.Proofs.WellFormed

/-!
Replacing in a well-formed tree. What leaves the links alone leaves the tree well formed (`WellFormed.linked`);
so does putting a node in the place of another one that was not replaced, if the way up from that place does not
lead to the node, and its old place is drained (`WellFormed.graft`).
-/
namespace ConfTree

/-- Two nodes of the same kind with the same links to others. -/
structure Node.Shaped (n n' : Node) : Prop where
  kind : n'.body.kind = n.body.kind
  below : n'.body.below = n.body.below
  key : n'.body.key = n.body.key
  parent : n'.parent = n.parent
  replacedBy : n'.replacedBy = n.replacedBy

theorem Node.Shaped.trans {n n' n'' : Node} (first : n.Shaped n') (second : n'.Shaped n'') : n.Shaped n'' where
  kind := second.kind.trans first.kind
  below := second.below.trans first.below
  key := second.key.trans first.key
  parent := second.parent.trans first.parent
  replacedBy := second.replacedBy.trans first.replacedBy

/-- Two nodes with the same links. -/
structure Node.Linked (n n' : Node) : Prop extends Node.Shaped n n' where
  isBound : n'.isBound = n.isBound

namespace Node.Linked

variable {n n' n'' : Node}

theorem refl (n : Node) : n.Linked n := ⟨⟨rfl,rfl,rfl,rfl,rfl⟩,rfl⟩

theorem trans (first : n.Linked n') (second : n'.Linked n'') : n.Linked n'' :=
  ⟨first.toShaped.trans second.toShaped,second.isBound.trans first.isBound⟩

end Node.Linked

theorem Body.below_frame (b : Body) : b.frame.below = b.below := by cases b <;> rfl

theorem Body.key_frame (b : Body) : b.frame.key = b.key := by cases b <;> rfl

theorem Node.Akin.linked {n n' : Node} (akin : n.Akin n') : n.Linked n' where
  kind := akin.kind
  below := by rw [← Body.below_frame,akin.body,Body.below_frame]
  key := by rw [← Body.key_frame,akin.body,Body.key_frame]
  parent := akin.parent
  replacedBy := akin.replacedBy
  isBound := akin.isBound

namespace Store

variable {s t u : Store}

/-- Two stores all nodes of which have the same links to others. -/
structure Shaped (s t : Store) : Prop where
  size : t.nodes.size = s.nodes.size
  node : ∀ id, (s.node id).Shaped (t.node id)

namespace Shaped

variable (shaped : s.Shaped t)
include shaped

theorem live (id : Nat) : t.Live id ↔ s.Live id := by rw [Live,Live,(shaped.node id).replacedBy]

theorem below (id : Nat) : t.below id = s.below id := (shaped.node id).below

theorem kind (id : Nat) : t.kind id = s.kind id := (shaped.node id).kind

theorem entries (m : Nat) : t.entries m = s.entries m := by rw [entries_eq,entries_eq,shaped.kind,shaped.below]

theorem keys (m : Nat) : t.keys m = s.keys m := by
  rw [Store.keys,Store.keys,shaped.entries]
  exact List.map_congr_left fun e _ => by rw [entryKey_eq,entryKey_eq,(shaped.node e).key]

theorem up (x y : Nat) : t.Up x y ↔ s.Up x y := by rw [Up,Up,(shaped.node x).replacedBy,(shaped.node x).parent]

theorem drained (e : Nat) : t.Drained e ↔ s.Drained e := by simp only [Drained,shaped.entries,shaped.live]

theorem trans (shaped' : t.Shaped u) : s.Shaped u :=
  ⟨shaped'.size.trans shaped.size,fun id => (shaped.node id).trans (shaped'.node id)⟩

end Shaped

/-- What there was is there still, of the same kind. -/
structure Stays (s t : Store) : Prop where
  grows : s.nodes.size ≤ t.nodes.size
  kind : ∀ id, id < s.nodes.size → t.kind id = s.kind id

namespace Stays

theorem refl (s : Store) : s.Stays s := ⟨Nat.le_refl _,fun _ _ => rfl⟩

theorem trans (first : s.Stays t) (second : t.Stays u) : s.Stays u :=
  ⟨Nat.le_trans first.grows second.grows,
    fun id old => (second.kind id (Nat.lt_of_lt_of_le old first.grows)).trans (first.kind id old)⟩

end Stays

theorem Shaped.stays (shaped : s.Shaped t) : s.Stays t := ⟨Nat.le_of_eq shaped.size.symm,fun id _ => shaped.kind id⟩

/-- What keeps the links between nodes, and binds no node but the root, keeps the tree well formed. -/
theorem WellFormed.shaped (form : s.WellFormed) (shaped : s.Shaped t)
    (bound : ∀ id, (t.node id).isBound = true → id = t.session.root ∧ s.Live id ∧ (s.node id).parent = none) : t.WellFormed where
  ends id := by simpa only [shaped.up] using form.ends id
  known x y up := by
    rw [shaped.size]
    exact form.known x y ((shaped.up x y).mp up)
  listed c id place := by
    rw [shaped.size]
    exact form.listed c id (shaped.below c ▸ place)
  held id p live parent := by
    rw [shaped.below]
    exact form.held id p ((shaped.live id).mp live) ((shaped.node id).parent ▸ parent)
  seats c id place := by
    rw [shaped.drained,shaped.live,(shaped.node id).parent]
    exact form.seats c id (shaped.below c ▸ place)
  distinct c := shaped.below c ▸ form.distinct c
  kinds m e member := (shaped.kind e).trans (form.kinds m e (shaped.entries m ▸ member))
  keys m := shaped.keys m ▸ form.keys m
  pinned e m parent kind := (shaped.live e).mpr
    (form.pinned e m ((shaped.node e).parent ▸ parent) ((shaped.kind m).symm.trans kind))
  original n q m replaced := by
    rw [shaped.entries]
    exact form.original n q m ((shaped.node n).replacedBy ▸ replaced)
  bound id is_bound := by
    rw [shaped.live,(shaped.node id).parent]
    exact bound id is_bound

/-- Two stores all nodes of which have the same links, and that have the same root. -/
structure Linked (s t : Store) : Prop where
  size : t.nodes.size = s.nodes.size
  node : ∀ id, (s.node id).Linked (t.node id)
  root : t.session.root = s.session.root

namespace Linked

theorem of_alike (alike : s.Alike t) : s.Linked t where
  size := congrArg Array.size alike.nodes
  node id := alike.node id ▸ .refl _
  root := by rw [alike.session]

theorem trans (first : s.Linked t) (second : t.Linked u) : s.Linked u where
  size := second.size.trans first.size
  node id := (first.node id).trans (second.node id)
  root := second.root.trans first.root

/-- A node that was changed in what is no link. -/
theorem update {id : Nat} {f : Node → Node} (linked : (s.node id).Linked (f (s.node id))) : s.Linked (s.update id f) where
  size := size_update
  node other := by
    rw [node_update]
    split
    · next same => exact same.1 ▸ linked
    · exact .refl _
  root := rfl

theorem inSession {f : Session → Session} (root : (f s.session).root = s.session.root) : s.Linked (s.inSession f) where
  size := rfl
  node _ := .refl _
  root := root

variable (linked : s.Linked t)
include linked

theorem shaped : s.Shaped t := ⟨linked.size,fun id => (linked.node id).toShaped⟩

theorem rooted : (t.node t.session.root).isBound = (s.node s.session.root).isBound := by
  rw [linked.root,(linked.node _).isBound]

end Linked

/-- What leaves the links alone leaves the tree well formed. -/
theorem WellFormed.linked (form : s.WellFormed) (linked : s.Linked t) : t.WellFormed :=
  form.shaped linked.shaped fun id bound => by
    rw [linked.root]
    exact form.bound id ((linked.node id).isBound ▸ bound)

/-! ## One node in the place of another -/

/-- The second store is the first one with `r` in the place of `n`. -/
structure Grafted (s t : Store) (n r : Nat) : Prop where
  size : t.nodes.size = s.nodes.size
  replaced : (t.node n).replacedBy = some r
  others : ∀ x, x ≠ n → (t.node x).replacedBy = (s.node x).replacedBy
  place : ∀ c, (s.node n).parent = some c → s.kind c ≠ .mapping ∧ n ∈ s.below c
  moved : (t.node r).parent = (s.node n).parent
  parent : ∀ x, x ≠ r → (t.node x).parent = (s.node x).parent
  kind : ∀ x, t.kind x = s.kind x
  key : ∀ x, t.entryKey x = s.entryKey x
  taken : ∀ c, (s.node n).parent = some c → t.below c = (s.below c).map fun x => if x = n then r else x
  below : ∀ c, (s.node n).parent ≠ some c → t.below c = s.below c
  kept : (s.node n).isBound = false → t.session.root = s.session.root ∧ ∀ x, (t.node x).isBound = (s.node x).isBound
  crowned : (s.node n).isBound = true → t.session.root = r ∧ (t.node n).isBound = false ∧ (t.node r).isBound = true ∧
    ∀ x, x ≠ n → x ≠ r → (t.node x).isBound = (s.node x).isBound
  resolution : ∀ x, (t.node x).resolution = (s.node x).resolution
  modification : ∀ x, (t.node x).body.modification? = (s.node x).body.modification?
  bodies : ∀ x, (t.node x).body = (s.node x).body ∨ Body.Swaps n r (s.node x).body (t.node x).body
  overrides : t.session.overrides = s.session.overrides

namespace WellFormed

variable {n r : Nat}

/-- What a node has to be to take the place of another one. -/
structure Fit (s : Store) (n r : Nat) : Prop where
  differ : r ≠ n
  known : r < s.nodes.size
  live : s.Live n
  fresh : s.Live r
  unbound : (s.node r).isBound = false
  unlisted : ∀ m, r ∉ s.entries m
  off : ∀ c, (s.node n).parent = some c → ¬ Relation.ReflTransGen s.Up c r
  left : ∀ c, r ∈ s.below c → ∃ m, c ∈ s.entries m ∧ (m = n ∨ ¬ s.Live m)

end WellFormed

namespace Grafted

variable {n r : Nat} (grafted : s.Grafted t n r)
include grafted

theorem live_of_live {x : Nat} (live : t.Live x) : s.Live x ∧ x ≠ n := by
  have differ : x ≠ n := fun same => by
    rw [same,Live,grafted.replaced] at live
    cases live
  exact ⟨(grafted.others x differ).symm.trans live,differ⟩

theorem live_other {x : Nat} (live : s.Live x) (differ : x ≠ n) : t.Live x := (grafted.others x differ).trans live

theorem stays : s.Stays t := ⟨Nat.le_of_eq grafted.size.symm,fun x _ => grafted.kind x⟩

theorem entries (m : Nat) : t.entries m = s.entries m := by
  rw [entries_eq,entries_eq,grafted.kind]
  split
  · next mapping => exact grafted.below m fun parent => (grafted.place m parent).1 mapping
  · rfl

theorem up_of_up {x y : Nat} (fit : WellFormed.Fit s n r) (up : t.Up x y) :
    s.Up x y ∧ x ≠ r ∨ x = n ∧ y = r ∨ x = r ∧ (s.node n).parent = some y := by
  rcases up with replaced | parent
  · by_cases here : x = n
    · rw [here,grafted.replaced] at replaced
      exact .inr (.inl ⟨here,(Option.some.inj replaced).symm⟩)
    · rw [grafted.others x here] at replaced
      refine .inl ⟨.inl replaced,fun same => ?_⟩
      rw [same,fit.fresh] at replaced
      cases replaced
  · by_cases there : x = r
    · rw [there,grafted.moved] at parent
      exact .inr (.inr ⟨there,parent⟩)
    · rw [grafted.parent x there] at parent
      exact .inl ⟨.inr parent,there⟩

/-- The ways up end as before: above the place that is taken nothing changed, and all else leads there. -/
theorem ends (form : s.WellFormed) (fit : WellFormed.Fit s n r) (id : Nat) : Acc (fun y x => t.Up x y) id := by
  have apart (x : Nat) (accessible : Acc (fun y x => s.Up x y) x) (off : ¬ Relation.ReflTransGen s.Up x r)
      (off' : ¬ Relation.ReflTransGen s.Up x n) : Acc (fun y x => t.Up x y) x := by
    induction accessible with
    | intro x _ ih =>
      refine .intro x fun y up => ?_
      rcases grafted.up_of_up fit up with ⟨up,_⟩ | ⟨rfl,_⟩ | ⟨rfl,_⟩
      · exact ih y up (fun way => off (.head up way)) fun way => off' (.head up way)
      · exact absurd .refl off'
      · exact absurd .refl off
  have above (c : Nat) (parent : (s.node n).parent = some c) : Acc (fun y x => t.Up x y) c :=
    apart c (form.ends c) (fit.off c parent) (form.loopless (.inr parent))
  have here : Acc (fun y x => t.Up x y) r := .intro r fun y up => by
    rcases grafted.up_of_up fit up with ⟨_,differ⟩ | ⟨same,_⟩ | ⟨_,parent⟩
    · exact absurd rfl differ
    · exact absurd same fit.differ
    · exact above y parent
  induction form.ends id with
  | intro x _ ih =>
    refine .intro x fun y up => ?_
    rcases grafted.up_of_up fit up with ⟨up,_⟩ | ⟨_,rfl⟩ | ⟨_,parent⟩
    · exact ih y up
    · exact here
    · exact above y parent

end Grafted

namespace WellFormed

variable {n r : Nat}

/-- An entry has one value. -/
theorem only {c x y : Nat} (kind : s.kind c = .entry) (first : x ∈ s.below c) (second : y ∈ s.below c) : x = y := by
  rw [Store.kind,Node.kind] at kind
  rw [Store.below] at first second
  cases body : (s.node c).body with
  | entry =>
    rw [body] at first second
    exact (List.mem_singleton.mp first).trans (List.mem_singleton.mp second).symm
  | _ => rw [body] at kind; cases kind

/-- A value that was not replaced fits the place of the mapping that its entry is in. -/
theorem fit_value (form : s.WellFormed) {x e m : Nat} (live : s.Live x) (value : (s.node x).parent = some e)
    (entry : s.kind e = .entry) (above : (s.node e).parent = some m) (mapping : s.kind m = .mapping) : Fit s (s.current m) x := by
  have member : e ∈ s.entries m := mem_entries.mpr ⟨mapping,form.held e m (form.pinned e m above mapping) above⟩
  have way : Relation.ReflTransGen s.Up e (s.current m) :=
    .head (.inr above) ((current_reaches m).lift (fun x => x) fun _ _ next => .inl next)
  exact {
    differ := fun same => form.loopless (.inr value) (same ▸ way)
    known := old_of_up (.inr value)
    live := form.current_live m
    fresh := live
    unbound := Bool.eq_false_iff.mpr fun bound => by
      rw [(form.bound x bound).2.2] at value
      cases value
    unlisted := fun m' member' => by
      rw [(form.member member').1] at value
      obtain rfl := Option.some.inj value
      rw [(mem_entries.mp member').1] at entry
      cases entry
    off := fun c parent back => form.loopless (.inr value) (way.trans (.head (.inr parent) back))
    left := fun c place => by
      rcases form.seats c x place with ⟨m',member',gone⟩ | ⟨parent,_⟩
      · exact ⟨m',member',.inr gone⟩
      · obtain rfl := Option.some.inj (value.symm.trans parent)
        refine ⟨m,member,?_⟩
        by_cases stays : s.Live m
        · exact .inl (current_of_live stays).symm
        · exact .inr stays }

theorem graft (form : s.WellFormed) (fit : Fit s n r) (grafted : s.Grafted t n r) : t.WellFormed := by
  have entries := grafted.entries
  have drained {c : Nat} (drained : s.Drained c) : t.Drained c := by
    obtain ⟨m,member,gone⟩ := drained
    exact ⟨m,by rw [entries]; exact member,fun live => gone (grafted.live_of_live live).1⟩
  exact {
    ends := grafted.ends form fit
    known := by
      intro x y up
      rw [grafted.size]
      rcases grafted.up_of_up fit up with ⟨up,_⟩ | ⟨_,rfl⟩ | ⟨_,parent⟩
      · exact form.known x y up
      · exact fit.known
      · exact form.known n y (.inr parent)
    listed := by
      intro c id place
      rw [grafted.size]
      by_cases there : (s.node n).parent = some c
      · rw [grafted.taken c there] at place
        obtain ⟨x,member,rfl⟩ := List.mem_map.mp place
        split
        · exact fit.known
        · exact form.listed c x member
      · exact form.listed c id (grafted.below c there ▸ place)
    held := by
      intro id p live parent
      obtain ⟨live,differ⟩ := grafted.live_of_live live
      by_cases same : id = r
      · rw [same,grafted.moved] at parent
        rw [grafted.taken p parent,same]
        exact List.mem_map.mpr ⟨n,(grafted.place p parent).2,if_pos rfl⟩
      · rw [grafted.parent id same] at parent
        have held := form.held id p live parent
        by_cases there : (s.node n).parent = some p
        · rw [grafted.taken p there]
          exact List.mem_map.mpr ⟨id,held,if_neg differ⟩
        · rwa [grafted.below p there]
    seats := by
      intro c id place
      have stays {id : Nat} (place : id ∈ s.below c) (differ : id ≠ n) (other : id ≠ r) :
          t.Drained c ∨ (t.node id).parent = some c ∧ t.Live id := by
        rw [grafted.parent id other]
        exact (form.seats c id place).imp drained fun seat => ⟨seat.1,grafted.live_other seat.2 differ⟩
      by_cases there : (s.node n).parent = some c
      · rw [grafted.taken c there] at place
        by_cases same : id = r
        · refine .inr ⟨?_,?_⟩
          · rw [same,grafted.moved]
            exact there
          · rw [same]
            exact grafted.live_other fit.fresh fit.differ
        · obtain ⟨x,member,image⟩ := List.mem_map.mp place
          split at image
          · exact absurd image.symm same
          · next differ =>
            subst image
            exact stays member differ same
      · rw [grafted.below c there] at place
        by_cases same : id = r
        · obtain ⟨m,member,gone⟩ := fit.left c (same ▸ place)
          refine .inl ⟨m,by rw [entries]; exact member,fun live => ?_⟩
          obtain ⟨live,differ⟩ := grafted.live_of_live live
          exact gone.elim differ fun gone => gone live
        · by_cases here : id = n
          · subst here
            rcases form.seats c id place with gone | seat
            · exact .inl (drained gone)
            · exact absurd seat.1 there
          · exact stays place here same
    distinct := by
      intro c
      by_cases there : (s.node n).parent = some c
      · rw [grafted.taken c there]
        have stranger : r ∉ s.below c := fun place => by
          obtain ⟨m,member,_⟩ := fit.left c place
          exact fit.differ (only (form.kinds m c member) place (grafted.place c there).2)
        refine (form.distinct c).map_on fun x place y place' same => ?_
        split at same <;> split at same
        · next here here' => exact here.trans here'.symm
        · exact absurd (same ▸ place') stranger
        · exact absurd (same ▸ place) stranger
        · exact same
      · rw [grafted.below c there]
        exact form.distinct c
    kinds := by
      intro m e member
      rw [grafted.kind]
      exact form.kinds m e (entries m ▸ member)
    keys := by
      intro m
      rw [Store.keys,entries]
      have same : (s.entries m).map t.entryKey = s.keys m := List.map_congr_left fun e _ => grafted.key e
      exact same ▸ form.keys m
    pinned := by
      intro e m parent kind
      rw [grafted.kind] at kind
      have onto (there : (s.node n).parent = some m) : False := (grafted.place m there).1 kind
      by_cases same : e = r
      · rw [same,grafted.moved] at parent
        exact (onto parent).elim
      · rw [grafted.parent e same] at parent
        exact grafted.live_other (form.pinned e m parent kind) fun here => onto (here ▸ parent)
    original := by
      intro q q' m replaced
      rw [entries]
      by_cases same : q = n
      · rw [same,grafted.replaced] at replaced
        exact Option.some.inj replaced ▸ fit.unlisted m
      · exact form.original q q' m (grafted.others q same ▸ replaced)
    bound := by
      intro x bound
      have other (bound : (s.node x).isBound = true) (differ : x ≠ n) (apart : x ≠ r) :
          x = s.session.root ∧ t.Live x ∧ (t.node x).parent = none := by
        obtain ⟨root,live,top⟩ := form.bound x bound
        exact ⟨root,grafted.live_other live differ,(grafted.parent x apart).trans top⟩
      cases crown : (s.node n).isBound with
      | false =>
        obtain ⟨root,same⟩ := grafted.kept crown
        rw [same x] at bound
        rw [root]
        refine other bound (fun here => ?_) fun here => ?_
        · rw [here,crown] at bound
          cases bound
        · rw [here,fit.unbound] at bound
          cases bound
      | true =>
        obtain ⟨root,gone,taken,same⟩ := grafted.crowned crown
        obtain ⟨was,_,top⟩ := form.bound n crown
        by_cases here : x = n
        · rw [here,gone] at bound
          cases bound
        · by_cases new : x = r
          · rw [root,new]
            exact ⟨rfl,grafted.live_other fit.fresh fit.differ,grafted.moved.trans top⟩
          · rw [same x here new] at bound
            exact absurd ((form.bound x bound).1.trans was.symm) here }

end WellFormed
end Store

/-! ## Grafting by replacing -/

namespace Body.Swaps

variable {x y : Nat} {b b' : Body}

theorem set_idxOf {items : List Nat} {i : Nat} (distinct : items.Nodup) (place : items.idxOf? x = some i) :
    items.set i y = items.map fun z => if z = x then y else z := by
  induction items generalizing i with
  | nil => cases place
  | cons z rest ih =>
    obtain ⟨stranger,distinct⟩ := List.nodup_cons.mp distinct
    rw [List.idxOf?_cons] at place
    split at place
    · next same =>
      obtain rfl := Option.some.inj place
      obtain rfl : z = x := by simpa using same
      have kept : rest.map (fun w => if w = z then y else w) = rest :=
        (List.map_congr_left fun w member => if_neg fun (here : w = z) => stranger (here ▸ member)).trans (List.map_id _)
      rw [List.map_cons,if_pos rfl,kept]
      rfl
    · next differ =>
      obtain ⟨j,later,rfl⟩ := Option.map_eq_some_iff.mp place
      rw [List.map_cons,if_neg (by simpa using differ),← ih distinct later]
      rfl

theorem mem (swaps : Body.Swaps x y b b') : x ∈ b.below := by
  cases swaps with
  | @item items _ _ _ place => exact (List.isSome_idxOf? (l := items)).mp (by rw [place]; rfl)
  | value => exact List.mem_singleton.mpr rfl

theorem kind (swaps : Body.Swaps x y b b') : b'.kind = b.kind := by cases swaps <;> rfl

theorem not_mapping (swaps : Body.Swaps x y b b') : b.kind ≠ .mapping := by cases swaps <;> exact nofun

theorem key (swaps : Body.Swaps x y b b') : b'.key = b.key := by cases swaps <;> rfl

theorem modification (swaps : Body.Swaps x y b b') : b'.modification? = b.modification? := by cases swaps <;> rfl

theorem below (swaps : Body.Swaps x y b b') (distinct : b.below.Nodup) : b'.below = b.below.map fun z => if z = x then y else z := by
  cases swaps with
  | item place => exact set_idxOf distinct place
  | value => simp [Body.below]

end Body.Swaps

namespace Store.WellFormed

variable {s t u : Store} {n r : Nat}

/-- A container that took another one's place is no entry of a mapping, and has nothing in its places that has
the other one as its parent. -/
theorem current_container (form : s.WellFormed) {p : Nat} (parent : (s.node n).parent = some p)
    (member : n ∈ s.below (s.current p)) : s.current p = p := by
  rcases form.seats _ n member with ⟨m,entry,_⟩ | seat
  · rcases (current_reaches p).cases_tail with same | ⟨x,_,last⟩
    · exact same
    · exact absurd entry (form.original x _ m last)
  · exact Option.some.inj (seat.1.symm.trans parent)

/-- A node in the place of an item or a value is grafted there. -/
theorem grafted_child (form : s.WellFormed) (old : n < s.nodes.size) (fit : Fit s n r) {p : Nat} {body : Body}
    (parent : (s.node n).parent = some p) (swaps : Body.Swaps n r (s.node p).body body) : s.Grafted (s.swapped p n r body) n r := by
  have apart : p ≠ n := fun same => form.loopless (.inr parent) (same ▸ .refl)
  have apart' : p ≠ r := fun same => fit.off p parent (same ▸ .refl)
  have atOld := node_swapped_old s body old fit.differ apart
  have atNew := node_swapped_new s body fit.known (Ne.symm apart') fit.differ apart
  have atPlace := node_swapped_container s body (form.known n p (.inr parent)) apart apart'
  -- what is read at each node, as far as the four kinds of nodes agree on it
  have field {β : Type} (f : Node → β) (x : Nat) (new : x = r → f ((s.swapped p n r body).node r) = f (s.node r))
      (here : x = n → f { s.node n with replacedBy := some r } = f (s.node n))
      (place : x = p → f { s.node p with body } = f (s.node p)) : f ((s.swapped p n r body).node x) = f (s.node x) := by
    by_cases isOld : x = n
    · rw [isOld,atOld,here isOld]
    · by_cases isNew : x = r
      · rw [isNew,new isNew]
      · by_cases isPlace : x = p
        · rw [isPlace,atPlace,place isPlace]
        · rw [node_swapped_other s body isPlace isOld isNew]
  have unbound : (s.node n).isBound = false := by
    refine Bool.eq_false_iff.mpr fun bound => ?_
    rw [(form.bound n bound).2.2] at parent
    cases parent
  have onto {c : Nat} (parent' : (s.node n).parent = some c) : p = c := Option.some.inj (parent.symm.trans parent')
  exact {
    size := size_swapped
    replaced := by rw [atOld]
    others := fun x differ => field (·.replacedBy) x (fun _ => by rw [atNew]) (fun same => absurd same differ) fun _ => rfl
    place := fun c parent' => onto parent' ▸ ⟨swaps.not_mapping,swaps.mem⟩
    moved := by rw [atNew,parent]
    parent := fun x differ => field (·.parent) x (fun same => absurd same differ) (fun _ => rfl) fun _ => rfl
    kind := fun x => field (·.body.kind) x (fun _ => by rw [atNew]) (fun _ => rfl) fun _ => swaps.kind
    key := fun x => by
      rw [entryKey_eq,entryKey_eq]
      exact field (·.body.key) x (fun _ => by rw [atNew]) (fun _ => rfl) fun _ => swaps.key
    taken := fun c parent' => onto parent' ▸ (congrArg (fun n : Node => n.body.below) atPlace).trans (swaps.below (form.distinct p))
    below := fun c other => field (·.body.below) c (fun _ => by rw [atNew]) (fun _ => rfl) fun same => absurd (same ▸ parent) other
    kept := fun _ => ⟨by rw [session_swapped],fun x => field (·.isBound) x (fun _ => by rw [atNew]) (fun _ => rfl) fun _ => rfl⟩
    crowned := fun crown => by rw [unbound] at crown; cases crown
    resolution := fun x => field (·.resolution) x (fun _ => by rw [atNew]) (fun _ => rfl) fun _ => rfl
    modification := fun x => field (·.body.modification?) x (fun _ => by rw [atNew]) (fun _ => rfl) fun _ => swaps.modification
    bodies := fun x => by
      by_cases isPlace : x = p
      · rw [isPlace,atPlace]
        exact .inr swaps
      · exact .inl (field (·.body) x (fun _ => by rw [atNew]) (fun _ => rfl) fun same => absurd same isPlace)
    overrides := by rw [session_swapped] }

/-- A node in the place of the top of a tree is grafted there. -/
theorem grafted_top (old : n < s.nodes.size) (fit : Fit s n r) (parent : (s.node n).parent = none) :
    s.Grafted ((s.crowned n r).handed n r) n r := by
  have atOld : (((s.crowned n r).handed n r).node n) = { s.node n with isBound := false, replacedBy := some r } := by
    rw [node_handed_old (by simpa using old) fit.differ,node_crowned_old fit.differ old]
  have atNew := (node_handed_new (s := s.crowned n r) (by simpa using fit.known) fit.differ).trans
    (by rw [node_crowned_new fit.differ fit.known])
  have elsewhere {x : Nat} (off : x ≠ n) (off' : x ≠ r) : ((s.crowned n r).handed n r).node x = s.node x := by
    rw [node_handed_other off off',node_crowned_other off off']
  have field {β : Type} (f : Node → β) (x : Nat) (new : x = r → f (((s.crowned n r).handed n r).node r) = f (s.node r))
      (here : x = n → f { s.node n with isBound := false, replacedBy := some r } = f (s.node n)) :
      f (((s.crowned n r).handed n r).node x) = f (s.node x) := by
    by_cases isOld : x = n
    · rw [isOld,atOld,here isOld]
    · by_cases isNew : x = r
      · rw [isNew,new isNew]
      · rw [elsewhere isOld isNew]
  have body (x : Nat) : (((s.crowned n r).handed n r).node x).body = (s.node x).body :=
    field (·.body) x (fun _ => by rw [atNew]) fun _ => rfl
  have root := root_crowned (s := s) fit.differ
  have nowhere {c : Nat} (parent' : (s.node n).parent = some c) : False := by
    rw [parent] at parent'
    cases parent'
  exact {
    size := by simp
    replaced := by rw [atOld]
    others := fun x differ => field (·.replacedBy) x (fun _ => by rw [atNew]) fun same => absurd same differ
    place := fun c parent' => (nowhere parent').elim
    moved := by rw [atNew,parent]
    parent := fun x differ => field (·.parent) x (fun same => absurd same differ) fun _ => rfl
    kind := fun x => congrArg Body.kind (body x)
    key := fun x => by rw [entryKey_eq,entryKey_eq,body x]
    taken := fun c parent' => (nowhere parent').elim
    below := fun c _ => congrArg Body.below (body c)
    kept := fun unbound => ⟨by rw [session_handed,root,unbound]; rfl,
      fun x => field (·.isBound) x (fun _ => by rw [atNew,unbound,Bool.or_false]) fun _ => unbound.symm⟩
    crowned := fun bound => ⟨by rw [session_handed,root,bound]; rfl,by rw [atOld],by rw [atNew,bound,Bool.or_true],
      fun x differ differ' => congrArg Node.isBound (elsewhere differ differ')⟩
    resolution := fun x => field (·.resolution) x (fun _ => by rw [atNew]) fun _ => rfl
    modification := fun x => congrArg Body.modification? (body x)
    bodies := fun x => .inl (body x)
    overrides := by
      rw [session_handed,crowned]
      split <;> rfl }

/-- Where a node takes the place of one that it fits, it is grafted there. -/
theorem grafted (form : s.WellFormed) (old : n < s.nodes.size) (fit : Fit s n r) (replaced : s.Replaced n r t) : s.Grafted t n r := by
  cases replaced with
  | @child p body parent swaps =>
    have there : s.current p = p := form.current_container parent swaps.mem
    rw [there] at swaps ⊢
    exact form.grafted_child old fit parent swaps
  | top parent => exact grafted_top old fit parent

end Store.WellFormed
end ConfTree
