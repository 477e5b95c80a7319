import ConfTree.Proofs.Discipline.Work
import ConfTree.Proofs.Edits
import ConfTree.Proofs.WellFormed

/-!
New trees beside well-formed ones. What is built from content whose mappings repeat no key stands alone
(`Store.Loose`), nothing was done to it, and the nodes there were stay as they were (`Store.Grows`).
-/
namespace ConfTree

open StoreM

/-- No mapping of the content repeats a key. -/
inductive Content.Distinct : Content → Prop
  | scalar (literal : Literal) : Distinct (.scalar literal)
  | list {items : List Content} (items_distinct : ∀ c ∈ items, Distinct c) : Distinct (.list items)
  | mapping {entries : List (EntryHead × Content)} (keys : (entries.map fun p => p.1.key.name).Nodup)
      (values : ∀ p ∈ entries, Distinct p.2) : Distinct (.mapping entries)

/-- Nothing was done to the node. -/
structure Node.Unbegun (n : Node) : Prop where
  unbound : n.isBound = false
  resolution : n.resolution = .pending
  modification : n.body.modification? ≠ some .active

namespace Store

variable {s t u : Store} {id : Nat}

/-- The second store is the first one with further trees, on which no work was begun. -/
structure Grows (s t : Store) : Prop where
  grows : s.nodes.size ≤ t.nodes.size
  old : ∀ id, id < s.nodes.size → t.node id = s.node id
  session : t.session = s.session
  unbegun : ∀ id, s.nodes.size ≤ id → (t.node id).Unbegun
  below : ∀ c id, s.nodes.size ≤ c → id ∈ t.below c → s.nodes.size ≤ id
  replaced : ∀ n q, s.nodes.size ≤ n → (t.node n).replacedBy = some q → s.nodes.size ≤ q

/-- The top of a tree that stands alone. -/
structure Loose (s : Store) (id : Nat) : Prop where
  known : id < s.nodes.size
  live : s.Live id
  top : (s.node id).parent = none
  unbound : (s.node id).isBound = false
  unlisted : ∀ c, id ∉ s.below c
  original : ∀ n, (s.node n).replacedBy ≠ some id

theorem default_unbegun : (default : Node).Unbegun := ⟨rfl,rfl,nofun⟩

namespace Grows

theorem refl (s : Store) : s.Grows s where
  grows := Nat.le_refl _
  old _ _ := rfl
  session := rfl
  unbegun id outside := by
    rw [node_of_size_le outside]
    exact default_unbegun
  below c id outside place := by
    rw [Store.below,node_of_size_le outside] at place
    cases place
  replaced n q outside replaced := by
    rw [node_of_size_le outside] at replaced
    cases replaced

theorem trans (first : s.Grows t) (second : t.Grows u) : s.Grows u where
  grows := Nat.le_trans first.grows second.grows
  old id old := (second.old id (Nat.lt_of_lt_of_le old first.grows)).trans (first.old id old)
  session := second.session.trans first.session
  unbegun id new := by
    by_cases old : id < t.nodes.size
    · rw [second.old id old]
      exact first.unbegun id new
    · exact second.unbegun id (Nat.le_of_not_lt old)
  below c id new place := by
    by_cases old : c < t.nodes.size
    · rw [Store.below,second.old c old] at place
      exact first.below c id new place
    · exact Nat.le_trans first.grows (second.below c id (Nat.le_of_not_lt old) place)
  replaced n q new replaced := by
    by_cases old : n < t.nodes.size
    · rw [second.old n old] at replaced
      exact first.replaced n q new replaced
    · exact Nat.le_trans first.grows (second.replaced n q (Nat.le_of_not_lt old) replaced)

end Grows

theorem Loose.grows (loose : s.Loose id) (grows : s.Grows t) : t.Loose id where
  known := Nat.lt_of_lt_of_le loose.known grows.grows
  live := by rw [Live,grows.old id loose.known]; exact loose.live
  top := by rw [grows.old id loose.known]; exact loose.top
  unbound := by rw [grows.old id loose.known]; exact loose.unbound
  unlisted c place := by
    by_cases old : c < s.nodes.size
    · rw [Store.below,grows.old c old] at place
      exact loose.unlisted c place
    · exact absurd (grows.below c id (Nat.le_of_not_lt old) place) (Nat.not_le_of_lt loose.known)
  original n replaced := by
    by_cases old : n < s.nodes.size
    · rw [grows.old n old] at replaced
      exact loose.original n replaced
    · exact absurd (grows.replaced n id (Nat.le_of_not_lt old) replaced) (Nat.not_le_of_lt loose.known)

/-! ## One more node -/

/-- The store with one more node, which gets others below it. -/
def bearing (s : Store) (body : Body) (children : List NodeId) : Store := (s.push (.fresh body)).adopted s.nodes.size children

/-- A body for a new node, and the tops of trees that are to stand below it. -/
structure Bears (s : Store) (body : Body) (children : List Nat) : Prop where
  loose : ∀ c ∈ children, s.Loose c
  below : body.below = children
  distinct : children.Nodup
  entries : body.kind = .mapping → (∀ e ∈ children, s.kind e = .entry) ∧ (children.map s.entryKey).Nodup
  unbegun : body.modification? ≠ some .active

namespace Bears

variable {body : Body} {children : List Nat} (bears : Bears s body children)
include bears

theorem apart : s.nodes.size ∉ children := fun member => Nat.lt_irrefl _ (bears.loose _ member).known

theorem node_new : (s.bearing body children).node s.nodes.size = .fresh body := by
  rw [bearing,node_adopted_of_not_mem bears.apart,node_push_new]

theorem node_child (member : id ∈ children) : (s.bearing body children).node id = { s.node id with parent := some s.nodes.size } := by
  have old := (bears.loose id member).known
  rw [bearing,node_adopted_of_mem member (by simp; omega),node_push_old old]

omit bears in
theorem node_other (apart : id ∉ children) (old : id ≠ s.nodes.size) : (s.bearing body children).node id = s.node id := by
  rw [bearing,node_adopted_of_not_mem apart,node_push,if_neg old]

/-- A node there was keeps all but its parent. -/
theorem node_old (old : id ≠ s.nodes.size) : ((s.bearing body children).node id).body = (s.node id).body ∧
    ((s.bearing body children).node id).replacedBy = (s.node id).replacedBy ∧
    ((s.bearing body children).node id).isBound = (s.node id).isBound := by
  by_cases member : id ∈ children
  · rw [bears.node_child member]
    exact ⟨rfl,rfl,rfl⟩
  · rw [node_other member old]
    exact ⟨rfl,rfl,rfl⟩

theorem below_new : (s.bearing body children).below s.nodes.size = children := by
  rw [Store.below,bears.node_new]
  exact bears.below

theorem below_old (old : id ≠ s.nodes.size) : (s.bearing body children).below id = s.below id := by
  rw [Store.below,(bears.node_old old).1,Store.below]

theorem kind_old (old : id ≠ s.nodes.size) : (s.bearing body children).kind id = s.kind id := by
  rw [Store.kind,Node.kind,(bears.node_old old).1]
  rfl

theorem key_old (old : id ≠ s.nodes.size) : (s.bearing body children).entryKey id = s.entryKey id := by
  rw [entryKey_eq,entryKey_eq,(bears.node_old old).1]

theorem live_old (old : id ≠ s.nodes.size) : (s.bearing body children).Live id ↔ s.Live id := by
  rw [Live,Live,(bears.node_old old).2.1]

theorem entries_old (old : id ≠ s.nodes.size) : (s.bearing body children).entries id = s.entries id := by
  rw [entries_eq,entries_eq,bears.kind_old old,bears.below_old old]

theorem kind_new : (s.bearing body children).kind s.nodes.size = body.kind := by
  rw [Store.kind,Node.kind,bears.node_new]
  rfl

theorem not_new (member : id ∈ children) : id ≠ s.nodes.size := Nat.ne_of_lt (bears.loose id member).known

/-- A link of the greater store was there, or leads from a child to the new node. -/
theorem up_inv {x y : Nat} (up : (s.bearing body children).Up x y) :
    s.Up x y ∧ x ∉ children ∧ x ≠ s.nodes.size ∨ x ∈ children ∧ y = s.nodes.size := by
  by_cases new : x = s.nodes.size
  · rw [Up,new,bears.node_new] at up
    rcases up with gone | gone <;> cases gone
  · by_cases member : x ∈ children
    · rw [Up,bears.node_child member] at up
      rcases up with replaced | parent
      · rw [show (s.node x).replacedBy = none from (bears.loose x member).live] at replaced
        cases replaced
      · exact .inr ⟨member,(Option.some.inj parent).symm⟩
    · rw [Up,node_other member new] at up
      exact .inl ⟨up,member,new⟩

theorem loose_new (form : s.WellFormed) : (s.bearing body children).Loose s.nodes.size where
  known := by simp [bearing]
  live := by rw [Live,bears.node_new]; rfl
  top := by rw [bears.node_new]; rfl
  unbound := by rw [bears.node_new]; rfl
  unlisted c place := by
    by_cases new : c = s.nodes.size
    · subst new
      rw [bears.below_new] at place
      exact bears.apart place
    · rw [bears.below_old new] at place
      exact Nat.lt_irrefl _ (form.listed c _ place)
  original n replaced := by
    by_cases new : n = s.nodes.size
    · rw [new,bears.node_new] at replaced
      cases replaced
    · rw [(bears.node_old new).2.1] at replaced
      exact Nat.lt_irrefl _ (form.known n _ (.inl replaced))

theorem wellFormed (form : s.WellFormed) : (s.bearing body children).WellFormed := by
  have top : Acc (fun y x => (s.bearing body children).Up x y) s.nodes.size := .intro _ fun y up => by
    rcases bears.up_inv up with ⟨_,_,same⟩ | ⟨member,_⟩
    · exact absurd rfl same
    · exact absurd member bears.apart
  have drained {c : Nat} (drained : s.Drained c) : (s.bearing body children).Drained c := by
    obtain ⟨m,member,gone⟩ := drained
    have old := Nat.ne_of_lt (old_of_entries member)
    exact ⟨m,by rw [bears.entries_old old]; exact member,(bears.live_old old).not.mpr gone⟩
  have parent_old {x p : Nat} (parent : (s.node x).parent = some p) : ((s.bearing body children).node x).parent = some p := by
    have stranger : x ∉ children := fun member => by
      rw [(bears.loose x member).top] at parent
      cases parent
    rw [node_other stranger (Nat.ne_of_lt (old_of_up (.inr parent)))]
    exact parent
  have kinds_new {e : Nat} (member : e ∈ (s.bearing body children).entries s.nodes.size) : body.kind = .mapping ∧ e ∈ children := by
    obtain ⟨kind,place⟩ := mem_entries.mp member
    exact ⟨bears.kind_new.symm.trans kind,bears.below_new ▸ place⟩
  exact {
    ends := by
      intro id
      induction form.ends id with
      | intro x _ ih =>
        refine .intro x fun y up => ?_
        rcases bears.up_inv up with ⟨up,_⟩ | ⟨_,rfl⟩
        · exact ih y up
        · exact top
    known := by
      intro x y up
      have size : (s.bearing body children).nodes.size = s.nodes.size + 1 := by simp [bearing]
      rw [size]
      rcases bears.up_inv up with ⟨up,_⟩ | ⟨_,rfl⟩
      · exact Nat.lt_succ_of_lt (form.known x y up)
      · exact Nat.lt_succ_self _
    listed := by
      intro c id place
      have size : (s.bearing body children).nodes.size = s.nodes.size + 1 := by simp [bearing]
      rw [size]
      by_cases new : c = s.nodes.size
      · subst new
        rw [bears.below_new] at place
        exact Nat.lt_succ_of_lt (bears.loose id place).known
      · rw [bears.below_old new] at place
        exact Nat.lt_succ_of_lt (form.listed c id place)
    held := by
      intro id p live parent
      rcases bears.up_inv (.inr parent) with ⟨up,member,new⟩ | ⟨member,rfl⟩
      · rw [node_other member new] at parent
        rw [bears.below_old (Nat.ne_of_lt (form.known id p (.inr parent)))]
        exact form.held id p ((bears.live_old new).mp live) parent
      · rw [bears.below_new]
        exact member
    seats := by
      intro c id place
      by_cases new : c = s.nodes.size
      · subst new
        rw [bears.below_new] at place
        refine .inr ⟨by rw [bears.node_child place],(bears.live_old (bears.not_new place)).mpr (bears.loose id place).live⟩
      · rw [bears.below_old new] at place
        refine (form.seats c id place).imp drained fun seat => ⟨parent_old seat.1,?_⟩
        exact (bears.live_old (Nat.ne_of_lt (form.listed c id place))).mpr seat.2
    distinct := by
      intro c
      by_cases new : c = s.nodes.size
      · subst new
        rw [bears.below_new]
        exact bears.distinct
      · rw [bears.below_old new]
        exact form.distinct c
    kinds := by
      intro m e member
      by_cases new : m = s.nodes.size
      · subst new
        obtain ⟨kind,child⟩ := kinds_new member
        exact (bears.kind_old (bears.not_new child)).trans ((bears.entries kind).1 e child)
      · rw [bears.entries_old new] at member
        exact (bears.kind_old (Nat.ne_of_lt (form.listed m e (mem_entries.mp member).2))).trans (form.kinds m e member)
    keys := by
      intro m
      rw [Store.keys]
      by_cases new : m = s.nodes.size
      · subst new
        rw [entries_eq]
        split
        · next kind =>
          rw [bears.below_new,List.map_congr_left fun e member => bears.key_old (bears.not_new member)]
          exact (bears.entries (bears.kind_new.symm.trans kind)).2
        · exact List.nodup_nil
      · rw [bears.entries_old new,List.map_congr_left fun e member =>
          bears.key_old (Nat.ne_of_lt (form.listed m e (mem_entries.mp member).2))]
        exact form.keys m
    pinned := by
      intro e m parent kind
      rcases bears.up_inv (.inr parent) with ⟨up,member,new⟩ | ⟨member,_⟩
      · rw [node_other member new] at parent
        rw [bears.kind_old (Nat.ne_of_lt (form.known e m (.inr parent)))] at kind
        exact (bears.live_old new).mpr (form.pinned e m parent kind)
      · exact (bears.live_old (bears.not_new member)).mpr (bears.loose e member).live
    original := by
      intro n q m replaced member
      by_cases first : n = s.nodes.size
      · rw [first,bears.node_new] at replaced
        cases replaced
      · rw [(bears.node_old first).2.1] at replaced
        by_cases new : m = s.nodes.size
        · subst new
          exact (bears.loose q (kinds_new member).2).original n replaced
        · rw [bears.entries_old new] at member
          exact form.original n q m replaced member
    bound := by
      intro id bound
      have new : id ≠ s.nodes.size := fun new => by
        rw [new,bears.node_new] at bound
        cases bound
      rw [(bears.node_old new).2.2] at bound
      have stranger : id ∉ children := fun member => by
        rw [(bears.loose id member).unbound] at bound
        cases bound
      obtain ⟨root,live,top⟩ := form.bound id bound
      have session : (s.bearing body children).session = s.session := by simp [bearing]
      rw [session]
      exact ⟨root,(bears.live_old new).mpr live,by rw [node_other stranger new]; exact top⟩ }

end Bears

theorem Grows.bearing {body : Body} {children : List Nat} (grows : s.Grows t) (bears : Bears t body children)
    (new : ∀ c ∈ children, s.nodes.size ≤ c) : s.Grows (t.bearing body children) where
  grows := Nat.le_trans grows.grows (by simp [Store.bearing])
  old id old := by
    rw [Bears.node_other (fun member => Nat.not_le_of_lt old (new id member)) (Nat.ne_of_lt (Nat.lt_of_lt_of_le old grows.grows))]
    exact grows.old id old
  session := (show (t.bearing body children).session = t.session by simp [Store.bearing]).trans grows.session
  unbegun id from_new := by
    by_cases last : id = t.nodes.size
    · rw [last,bears.node_new]
      exact ⟨rfl,rfl,bears.unbegun⟩
    · by_cases member : id ∈ children
      · rw [bears.node_child member]
        exact ⟨(grows.unbegun id from_new).unbound,(grows.unbegun id from_new).resolution,(grows.unbegun id from_new).modification⟩
      · rw [Bears.node_other member last]
        exact grows.unbegun id from_new
  below c id from_new place := by
    by_cases last : c = t.nodes.size
    · subst last
      rw [bears.below_new] at place
      exact new id place
    · rw [bears.below_old last] at place
      exact grows.below c id from_new place
  replaced n q from_new replaced := by
    by_cases last : n = t.nodes.size
    · rw [last,bears.node_new] at replaced
      cases replaced
    · rw [(bears.node_old last).2.1] at replaced
      exact grows.replaced n q from_new replaced

/-! ## Building -/

/-- New trees that stand alone, and well-formed ones as they were. -/
structure Sprouts (s t : Store) (ids : List Nat) : Prop where
  form : t.WellFormed
  grows : s.Grows t
  distinct : ids.Nodup
  loose : ∀ id ∈ ids, t.Loose id ∧ s.nodes.size ≤ id

namespace Sprouts

theorem nil (form : s.WellFormed) : s.Sprouts s [] := ⟨form,.refl s,List.nodup_nil,nofun⟩

theorem cons {ids : List Nat} (first : s.Sprouts t [id]) (rest : t.Sprouts u ids) : s.Sprouts u (id :: ids) where
  form := rest.form
  grows := first.grows.trans rest.grows
  distinct := by
    have known := (first.loose id (List.mem_singleton.mpr rfl)).1.known
    exact List.nodup_cons.mpr ⟨fun member => Nat.not_le_of_lt known (rest.loose id member).2,rest.distinct⟩
  loose other member := by
    rcases List.mem_cons.mp member with rfl | member
    · obtain ⟨loose,new⟩ := first.loose other (List.mem_singleton.mpr rfl)
      exact ⟨loose.grows rest.grows,new⟩
    · exact ⟨(rest.loose other member).1,Nat.le_trans first.grows.grows (rest.loose other member).2⟩

theorem bears {ids : List Nat} {body : Body} (sprouts : s.Sprouts t ids) (below : body.below = ids)
    (entries : body.kind = .mapping → (∀ e ∈ ids, t.kind e = .entry) ∧ (ids.map t.entryKey).Nodup)
    (unbegun : body.modification? ≠ some .active) : Bears t body ids :=
  ⟨fun id member => (sprouts.loose id member).1,below,sprouts.distinct,entries,unbegun⟩

/-- A new node above new trees. -/
theorem bearing {ids : List Nat} {body : Body} (sprouts : s.Sprouts t ids) (below : body.below = ids)
    (entries : body.kind = .mapping → (∀ e ∈ ids, t.kind e = .entry) ∧ (ids.map t.entryKey).Nodup)
    (unbegun : body.modification? ≠ some .active) : s.Sprouts (t.bearing body ids) [t.nodes.size] := by
  have bears := sprouts.bears below entries unbegun
  refine ⟨bears.wellFormed sprouts.form,sprouts.grows.bearing bears fun id member => (sprouts.loose id member).2,
    List.nodup_singleton _,fun id member => ?_⟩
  rw [List.mem_singleton.mp member]
  exact ⟨bears.loose_new sprouts.form,sprouts.grows.grows⟩

end Sprouts

end Store

open Store

variable {s t u : Store}

theorem newEntry_run (head : EntryHead) (value : NodeId) (s : Store) : Runs (newEntry head value) s (.ok s.nodes.size)
    (s.bearing (.entry head value value none .pending none) [value]) := newParent_run _ _ _

namespace Store.Sprouts

/-- A new entry with a new value. -/
theorem entry {value : Nat} (sprouts : s.Sprouts t [value]) (head : EntryHead) :
    s.Sprouts (t.bearing (.entry head value value none .pending none) [value]) [t.nodes.size] :=
  sprouts.bearing rfl nofun nofun

/-- A new node is an entry with its key after further growth. -/
theorem entry_kept {value : Nat} (sprouts : s.Sprouts t [value]) (head : EntryHead)
    (grows : (t.bearing (.entry head value value none .pending none) [value]).Grows u) :
    u.kind t.nodes.size = .entry ∧ u.entryKey t.nodes.size = head.key.name := by
  have known := (sprouts.loose value (List.mem_singleton.mpr rfl)).1.known
  have node : u.node t.nodes.size = .fresh (.entry head value value none .pending none) := by
    rw [grows.old _ (by simp [Store.bearing]),Store.bearing,
      node_adopted_of_not_mem (by simpa using Nat.ne_of_gt known),node_push_new]
  rw [entryKey_eq,Store.kind,node]
  exact ⟨rfl,rfl⟩

end Store.Sprouts

mutual

/-- Content without repeated keys is built. -/
theorem plant_sprouts (c : Content) (distinct : c.Distinct) {s : Store} (form : s.WellFormed) :
    ∃ id t, Runs (plant c) s (.ok id) t ∧ s.Sprouts t [id] := by
  cases c with
  | scalar literal => exact ⟨_,_,newNode_run,(Sprouts.nil form).bearing rfl nofun nofun⟩
  | list items =>
    cases distinct with
    | list items_distinct =>
      obtain ⟨ids,t,run,sprouts⟩ := plantAll_sprouts items items_distinct form
      exact ⟨_,_,run.bind (newParent_run _ _ _),sprouts.bearing rfl nofun nofun⟩
  | mapping entries =>
    cases distinct with
    | mapping keys values =>
      obtain ⟨ids,t,run,sprouts,kinds,names⟩ := plantEntries_sprouts entries values form
      exact ⟨_,_,run.bind (newParent_run _ _ _),sprouts.bearing rfl (fun _ => ⟨kinds,names ▸ keys⟩) nofun⟩

theorem plantAll_sprouts (cs : List Content) (distinct : ∀ c ∈ cs, c.Distinct) {s : Store} (form : s.WellFormed) :
    ∃ ids t, Runs (plantAll cs) s (.ok ids) t ∧ s.Sprouts t ids := by
  cases cs with
  | nil => exact ⟨_,_,Runs.ok _ _,.nil form⟩
  | cons c rest =>
    obtain ⟨id,t,first,sprouts⟩ := plant_sprouts c (distinct c (by simp)) form
    obtain ⟨ids,u,second,more⟩ := plantAll_sprouts rest (fun c member => distinct c (List.mem_cons_of_mem _ member)) sprouts.form
    exact ⟨_,_,first.bind (second.bind (Runs.ok _ _)),sprouts.cons more⟩

theorem plantEntries_sprouts (cs : List (EntryHead × Content)) (distinct : ∀ p ∈ cs, p.2.Distinct) {s : Store} (form : s.WellFormed) :
    ∃ ids t, Runs (plantEntries cs) s (.ok ids) t ∧ s.Sprouts t ids ∧ (∀ id ∈ ids, t.kind id = .entry) ∧
      ids.map t.entryKey = cs.map fun p => p.1.key.name := by
  cases cs with
  | nil => exact ⟨_,_,Runs.ok _ _,.nil form,nofun,rfl⟩
  | cons p rest =>
    obtain ⟨head,c⟩ := p
    obtain ⟨value,t,first,sprouts⟩ := plant_sprouts c (distinct (head,c) (by simp)) form
    have entry := sprouts.entry head
    obtain ⟨ids,u,second,more,kinds,names⟩ :=
      plantEntries_sprouts rest (fun p member => distinct p (List.mem_cons_of_mem _ member)) entry.form
    refine ⟨_,_,first.bind ((newEntry_run head value t).bind (second.bind (Runs.ok _ _))),entry.cons more,?_,?_⟩
    · intro id member
      rcases List.mem_cons.mp member with rfl | member
      · exact (sprouts.entry_kept head more.grows).1
      · exact kinds id member
    · rw [List.map_cons,List.map_cons,(sprouts.entry_kept head more.grows).2,names]

end

/-! ## Content that is built -/

namespace Content

theorem not_seen {path raw : Text} {seen : List (Text × Text)} {key : Key} {u : Unit} (fresh : checkName path seen raw key = .ok u) :
    key.name ∉ seen.map Prod.fst := by
  rw [checkName] at fresh
  split at fresh
  · cases fresh
  · next absent =>
    intro member
    obtain ⟨p,among,same⟩ := List.mem_map.mp member
    have differ := List.lookup_eq_none_iff.mp absent p among
    simp [same] at differ

mutual

/-- What is read from a value repeats no key. -/
theorem ofValue_distinct (v : Value) {path : Text} {c : Content} (read : ofValue path v = .ok c) : c.Distinct := by
  cases v with
  | list id items =>
    rw [ofValue] at read
    obtain ⟨cs,inner,rfl⟩ := ok_of_map read
    exact .list (ofItems_distinct items inner)
  | mapping id pairs =>
    rw [ofValue] at read
    obtain ⟨entries,inner,rfl⟩ := ok_of_map read
    obtain ⟨keys,_,values⟩ := ofPairs_distinct pairs inner
    exact .mapping keys values
  | number n =>
    rw [ofValue] at read
    split at read
    · cases read
      exact .scalar _
    · cases read
  | null | bool b | text t =>
    rw [ofValue] at read
    cases read
    exact .scalar _
  | _ =>
    rw [ofValue] at read
    cases read

theorem ofItems_distinct (items : List Value) {path : Text} {index : Nat} {cs : List Content}
    (read : ofItems path index items = .ok cs) : ∀ c ∈ cs, c.Distinct := by
  cases items with
  | nil =>
    rw [ofItems] at read
    cases read
    exact nofun
  | cons v rest =>
    rw [ofItems] at read
    obtain ⟨c,first,read⟩ := ok_of_bind read
    obtain ⟨more,later,read⟩ := ok_of_bind read
    cases read
    intro d member
    rcases List.mem_cons.mp member with rfl | member
    · exact ofValue_distinct v first
    · exact ofItems_distinct rest later d member

theorem ofPairs_distinct (pairs : Pairs) {path : Text} {seen : List (Text × Text)} {entries : List (EntryHead × Content)}
    (read : ofPairs path seen pairs = .ok entries) : (entries.map fun p => p.1.key.name).Nodup ∧
      (∀ p ∈ entries, p.1.key.name ∉ seen.map Prod.fst) ∧ ∀ p ∈ entries, p.2.Distinct := by
  cases pairs with
  | nil =>
    rw [ofPairs] at read
    cases read
    exact ⟨List.nodup_nil,nofun,nofun⟩
  | cons p rest =>
    obtain ⟨raw,v⟩ := p
    rw [ofPairs] at read
    obtain ⟨key,_,read⟩ := ok_of_bind read
    obtain ⟨_,fresh,read⟩ := ok_of_bind read
    obtain ⟨c,first,read⟩ := ok_of_bind read
    obtain ⟨more,later,read⟩ := ok_of_bind read
    cases read
    obtain ⟨keys,unseen,values⟩ := ofPairs_distinct rest later
    refine ⟨List.nodup_cons.mpr ⟨fun member => ?_,keys⟩,fun q member => ?_,fun q member => ?_⟩
    · obtain ⟨q,among,same⟩ := List.mem_map.mp member
      exact unseen q among (same ▸ List.mem_cons_self)
    · rcases List.mem_cons.mp member with rfl | member
      · exact not_seen fresh
      · exact fun among => unseen q member (List.mem_cons_of_mem _ among)
    · rcases List.mem_cons.mp member with rfl | member
      · exact ofValue_distinct v first
      · exact values q member

end

/-- The entries of content; none if it is no mapping. -/
def entries : Content → List (EntryHead × Content)
  | .mapping entries => entries
  | _ => []

theorem Distinct.entries {c : Content} (distinct : c.Distinct) :
    (c.entries.map fun p => p.1.key.name).Nodup ∧ ∀ p ∈ c.entries, p.2.Distinct := by
  cases distinct with
  | mapping keys values => exact ⟨keys,values⟩
  | _ => exact ⟨List.nodup_nil,nofun⟩

end Content

namespace Store.WellFormed

/-- The names under which a mapping declares content are keys of its entries. -/
theorem declared_sublist (m depth : Nat) : (((s.entries m).filterMap fun e =>
    match (s.node e).body with
    | .entry head _ declared .. => some (head,s.contentTo depth declared)
    | _ => none).map fun p => p.1.key.name).Sublist (s.keys m) := by
  rw [Store.keys]
  induction s.entries m with
  | nil => exact .slnil
  | cons e rest ih =>
    rw [List.filterMap_cons,List.map_cons]
    cases body : (s.node e).body with
    | entry head =>
      have key : s.entryKey e = head.key.name := by rw [Store.entryKey,body]
      rw [key]
      exact ih.cons_cons _
    | _ => exact ih.cons _

variable (form : s.WellFormed)
include form

theorem contentTo_distinct (depth id : Nat) : (s.contentTo depth id).Distinct := by
  induction depth generalizing id with
  | zero => exact .list nofun
  | succ depth ih =>
    rw [contentTo]
    cases body : (s.node id).body with
    | scalar => exact .scalar _
    | sequence items declared =>
      refine .list fun c member => ?_
      obtain ⟨x,_,rfl⟩ := List.mem_map.mp member
      exact ih x
    | mapping entries =>
      have here : s.entries id = entries := by rw [Store.entries,body]
      refine .mapping ?_ fun p member => ?_
      · exact here ▸ (declared_sublist id depth).nodup (form.keys id)
      · obtain ⟨e,_,found⟩ := List.mem_filterMap.mp member
        split at found
        · cases found
          exact ih _
        · cases found
    | entry => exact ih _

/-- What a node was declared with repeats no key. -/
theorem content_distinct (id : Nat) : (s.content id).Distinct := form.contentTo_distinct _ id

omit form in
theorem findEntry_isNone {m : Nat} {key : Text} : (s.findEntry m key).isNone ↔ key ∉ s.keys m := by
  simp [Store.findEntry,Store.keys]

omit form in
theorem content_keys {m : Nat} (mapping : s.kind m = .mapping) :
    ((s.content m).entries.map fun p => p.1.key.name).Sublist (s.keys m) := by
  rw [Store.content,contentTo]
  cases body : (s.node m).body with
  | mapping entries =>
    have here : s.entries m = entries := by rw [Store.entries,body]
    exact here ▸ declared_sublist m s.nodes.size
  | _ => rw [Store.kind,Node.kind,body] at mapping; cases mapping

omit form in
theorem overlay_eq (own base : Nat) : Modify.overlay s own base = .mapping
    (((s.content own).entries.map fun p =>
        match s.findEntry base p.1.key.name with
        | some entry => ({ p.1 with inherited := some entry },p.2)
        | none => (p.1,p.2)) ++
      (s.content base).entries.filter fun p => (s.findEntry own p.1.key.name).isNone) := by
  rfl

/-- What a mapping becomes that is laid over a base repeats no key. -/
theorem overlay_distinct {own : Nat} (base : Nat) (mapping : s.kind own = .mapping) : (Modify.overlay s own base).Distinct := by
  obtain ⟨own_keys,own_values⟩ := (form.content_distinct own).entries
  obtain ⟨base_keys,base_values⟩ := (form.content_distinct base).entries
  rw [overlay_eq]
  refine .mapping ?_ fun p member => ?_
  · have kept : ((s.content own).entries.map fun p =>
        match s.findEntry base p.1.key.name with
        | some entry => ({ p.1 with inherited := some entry },p.2)
        | none => (p.1,p.2)).map (fun p => p.1.key.name) = (s.content own).entries.map fun p => p.1.key.name := by
      rw [List.map_map]
      refine List.map_congr_left fun p _ => ?_
      rw [Function.comp_apply]
      split <;> rfl
    rw [List.map_append,kept,List.nodup_append]
    refine ⟨own_keys,(List.filter_sublist.map _).nodup base_keys,fun key here key' there same => ?_⟩
    obtain ⟨p,added,rfl⟩ := List.mem_map.mp there
    obtain ⟨_,missing⟩ := List.mem_filter.mp added
    exact findEntry_isNone.mp missing (same ▸ (content_keys mapping).subset here)
  · rcases List.mem_append.mp member with member | member
    · obtain ⟨q,among,rfl⟩ := List.mem_map.mp member
      have distinct := own_values q among
      split <;> exact distinct
    · exact base_values p (List.mem_filter.mp member).1

end Store.WellFormed
end ConfTree
