import ConfTree.Proofs.Ascent
import ConfTree.Proofs.Location

/-!
Well-formed trees. The ways from a node to what took its place and to its container end; what stands in a
place has its container as its parent and was not replaced, unless it was moved out of an entry whose mapping
is gone (`Store.Drained`). So every node has a name (`WellFormed.name`), and from the root down all places
are taken by current nodes (`WellFormed.seats_reachable`).
-/
namespace ConfTree

namespace Body

/-- The nodes that stand below a node of this body, in their places. -/
def below : Body → List NodeId
  | .scalar .. => []
  | .sequence items .. => items
  | .mapping entries _ => entries
  | .entry _ slot .. => [slot]

/-- The key of an entry. -/
def key : Body → Text
  | .entry head .. => head.key.name
  | _ => .empty

end Body

namespace Store

variable {s : Store}

/-- The node was not replaced. -/
def Live (s : Store) (id : Nat) : Prop := (s.node id).replacedBy = none

/-- The nodes in the places of a node. -/
def below (s : Store) (id : Nat) : List Nat := (s.node id).body.below

/-- From a node to what took its place, or to its container. -/
def Up (s : Store) (x y : Nat) : Prop := (s.node x).replacedBy = some y ∨ (s.node x).parent = some y

/-- An entry of a mapping that was replaced; its value may have taken the place of the mapping. -/
def Drained (s : Store) (e : Nat) : Prop := ∃ m, e ∈ s.entries m ∧ ¬ s.Live m

/-- The links of all trees agree. -/
structure WellFormed (s : Store) : Prop where
  ends : ∀ id, Acc (fun y x => s.Up x y) id
  known : ∀ x y, s.Up x y → y < s.nodes.size
  listed : ∀ c id, id ∈ s.below c → id < s.nodes.size
  held : ∀ id p, s.Live id → (s.node id).parent = some p → id ∈ s.below p
  seats : ∀ c id, id ∈ s.below c → s.Drained c ∨ (s.node id).parent = some c ∧ s.Live id
  distinct : ∀ c, (s.below c).Nodup
  kinds : ∀ m e, e ∈ s.entries m → s.kind e = .entry
  keys : ∀ m, (s.keys m).Nodup
  /-- An entry of a mapping cannot be replaced, nor take the place of another node. -/
  pinned : ∀ e m, (s.node e).parent = some m → s.kind m = .mapping → s.Live e
  original : ∀ n q m, (s.node n).replacedBy = some q → q ∉ s.entries m
  bound : ∀ id, (s.node id).isBound = true → id = s.session.root ∧ s.Live id ∧ (s.node id).parent = none

theorem entries_eq (m : Nat) : s.entries m = if s.kind m = .mapping then s.below m else [] := by
  rw [Store.entries,Store.kind,Node.kind,below]
  cases (s.node m).body <;> rfl

theorem mem_entries {m e : Nat} : e ∈ s.entries m ↔ s.kind m = .mapping ∧ e ∈ s.below m := by
  rw [entries_eq]
  split <;> simp_all

theorem entryKey_eq (id : Nat) : s.entryKey id = (s.node id).body.key := by
  rw [entryKey]
  cases (s.node id).body <;> rfl

theorem old_of_up {x y : Nat} (up : s.Up x y) : x < s.nodes.size := by
  refine Nat.lt_of_not_le fun outside => ?_
  rw [Up,node_of_size_le outside] at up
  rcases up with gone | gone <;> cases gone

theorem old_of_entries {m e : Nat} (member : e ∈ s.entries m) : m < s.nodes.size := by
  refine Nat.lt_of_not_le fun outside => ?_
  rw [Store.entries,node_of_size_le outside] at member
  cases member

namespace WellFormed

variable (form : s.WellFormed)
include form

theorem drained_kind {e : Nat} (drained : s.Drained e) : s.kind e = .entry := by
  obtain ⟨m,member,_⟩ := drained
  exact form.kinds m e member

theorem member {m e : Nat} (member : e ∈ s.entries m) : (s.node e).parent = some m ∧ s.Live e := by
  rcases form.seats m e (mem_entries.mp member).2 with drained | seat
  · have kind := form.drained_kind drained
    rw [(mem_entries.mp member).1] at kind
    cases kind
  · exact seat

theorem loopless {x y : Nat} (up : s.Up x y) : ¬ Relation.ReflTransGen s.Up y x := by
  induction form.ends x generalizing y with
  | intro x _ ih =>
    intro back
    rcases back.cases_head with rfl | ⟨z,next,rest⟩
    · exact ih _ up up .refl
    · exact ih y up next (rest.tail up)

/-! ## The current node -/

omit form in
theorem follow_live {steps : Nat} {id n : Nat} (height : Height (fun x => (s.node x).replacedBy) n id) (room : n ≤ steps) :
    s.Live (s.follow steps id) := by
  induction height generalizing steps with
  | top ends =>
    rw [follow_of_live ends]
    exact ends
  | step next _ ih =>
    obtain ⟨steps,rfl⟩ : ∃ k, steps = k + 1 := ⟨steps - 1,by omega⟩
    simp only [follow,next]
    exact ih (by omega)

/-- Following replacements from any node ends at one that was not replaced. -/
theorem current_live (id : Nat) : s.Live (s.current id) := by
  obtain ⟨n,height⟩ := Height.of_acc (fun x y next => .inl next) (form.ends id)
  exact follow_live height (height.le fun x y next => old_of_up (.inl next))

omit form in
theorem follow_reaches (steps id : Nat) : Relation.ReflTransGen (fun x y => (s.node x).replacedBy = some y) id (s.follow steps id) := by
  induction steps generalizing id with
  | zero => exact .refl
  | succ steps ih =>
    rw [follow]
    cases next : (s.node id).replacedBy with
    | none => exact .refl
    | some y => exact .head next (ih y)

omit form in
theorem current_reaches (id : Nat) : Relation.ReflTransGen (fun x y => (s.node x).replacedBy = some y) id (s.current id) :=
  follow_reaches _ id

theorem current_old {id : Nat} (old : id < s.nodes.size) : s.current id < s.nodes.size := by
  rcases (current_reaches id).cases_tail with same | ⟨x,_,last⟩
  · rwa [same]
  · exact form.known x _ (.inl last)

/-! ## Names -/

omit form in
theorem namer_up {id above : Nat} (found : s.namer? id = some above) : Relation.TransGen s.Up id above := by
  have start : Relation.ReflTransGen s.Up id (s.current id) := (current_reaches id).lift (fun x => x) fun _ _ next => .inl next
  rw [namer?] at found
  cases parent : (s.node (s.current id)).parent with
  | none =>
    rw [parent] at found
    cases found
  | some p =>
    have first : Relation.TransGen s.Up id p := .tail' start (.inr parent)
    rw [parent] at found
    cases body : (s.node p).body with
    | entry =>
      simp only [body] at found
      exact first.tail (.inr found)
    | _ =>
      simp only [body] at found
      obtain rfl := Option.some.inj found
      exact first

theorem parts_known (steps id : Nat) : (∃ parts, s.partsUpTo steps id = .ok parts) ∨ s.partsUpTo steps id = .error .endless := by
  induction steps generalizing id with
  | zero => exact .inr rfl
  | succ steps ih =>
    rw [partsUpTo]
    cases parent : (s.node (s.current id)).parent with
    | none => exact .inl ⟨[],rfl⟩
    | some p =>
      have held := form.held _ p (form.current_live id) parent
      have onto (id : Nat) (more : List Text) : (∃ parts, (do return (← s.partsUpTo steps id) ++ more) = Except.ok parts) ∨
          (do return (← s.partsUpTo steps id) ++ more) = Except.error AddressIssue.endless := by
        rcases ih id with ⟨parts,named⟩ | endless
        · exact .inl ⟨parts ++ more,by rw [named]; rfl⟩
        · exact .inr (by rw [endless]; rfl)
      rw [Store.below] at held
      dsimp only
      rw [childPartsWith]
      cases body : (s.node p).body with
      | scalar => rw [body] at held; cases held
      | sequence items =>
        rw [body] at held
        change _ ∈ items at held
        obtain ⟨i,place⟩ := Option.ne_none_iff_exists'.mp (mt List.idxOf?_eq_none_iff.mp (not_not.mpr held))
        dsimp only
        rw [place]
        exact onto _ _
      | mapping entries =>
        rw [body] at held
        change _ ∈ entries at held
        dsimp only
        rw [if_pos (List.contains_iff_mem.mpr held)]
        exact onto _ _
      | entry head =>
        cases (s.node p).parent with
        | none => exact .inl ⟨_,rfl⟩
        | some m => exact onto _ _

/-- Every node has a name. -/
theorem name (id : Nat) : ∃ name, s.name id = .ok name := by
  obtain ⟨n,height⟩ := Height.of_acc (r := Relation.TransGen fun y x => s.Up x y)
    (fun x y found => Relation.transGen_swap.mpr (namer_up found)) (form.ends id).transGen
  have ends := name_ends height
  rw [Store.name,Store.parts] at ends ⊢
  rcases form.parts_known (s.nodes.size + 1) id with ⟨parts,named⟩ | endless
  · exact ⟨_,by rw [named]; rfl⟩
  · rw [endless] at ends
    exact absurd rfl ends

omit form in
theorem above_up {id above : Nat} (found : s.above? id = some above) : Relation.TransGen s.Up id above := by
  obtain ⟨p,parent,rfl⟩ := Option.map_eq_some_iff.mp found
  have along (x : Nat) : Relation.ReflTransGen s.Up x (s.current x) := (current_reaches x).lift (fun x => x) fun _ _ next => .inl next
  exact (Relation.TransGen.tail' (along id) (.inr parent)).trans_left (along p)

/-- The way upward ends. -/
theorem height_above (id : Nat) : ∃ n, Height s.above? n id ∧ n ≤ s.nodes.size := by
  obtain ⟨n,height⟩ := Height.of_acc (r := Relation.TransGen fun y x => s.Up x y)
    (fun x y found => Relation.transGen_swap.mpr (above_up found)) (form.ends id).transGen
  exact ⟨n,height,height.le fun _ _ => old_of_above?⟩

/-- Every node stands below the top of a tree. -/
theorem top (id : Nat) : ∃ top, s.top? id = some top := by
  obtain ⟨n,height,room⟩ := form.height_above id
  exact upTo_ends height (Nat.lt_succ_of_le room)

/-! ## From the root down -/

end WellFormed

/-- The nodes of the session's tree: the root, and what is in the places of such nodes. -/
inductive Reachable (s : Store) : Nat → Prop
  | root : Reachable s s.session.root
  | place {c id : Nat} (above : Reachable s c) (member : id ∈ s.below c) : Reachable s id

namespace WellFormed

variable (form : s.WellFormed) (rooted : (s.node s.session.root).isBound = true)
include form rooted

/-- What is in the places of a node of the session's tree was not replaced and has that node as its parent. -/
theorem seats_reachable {c : Nat} (reachable : Reachable s c) :
    s.Live c ∧ ∀ id ∈ s.below c, s.Live id ∧ (s.node id).parent = some c := by
  induction reachable with
  | root =>
    obtain ⟨_,live,top⟩ := form.bound _ rooted
    refine ⟨live,fun id place => ?_⟩
    rcases form.seats _ _ place with ⟨m,member,_⟩ | seat
    · rw [(form.member member).1] at top
      cases top
    · exact seat.symm
  | @place c' c above member ih =>
    obtain ⟨live,parent⟩ := ih.2 c member
    refine ⟨live,fun id place => ?_⟩
    rcases form.seats _ _ place with ⟨m,member,gone⟩ | seat
    · rw [(form.member member).1] at parent
      obtain rfl := Option.some.inj parent
      exact absurd ih.1 gone
    · exact seat.symm

end WellFormed
end Store
end ConfTree
