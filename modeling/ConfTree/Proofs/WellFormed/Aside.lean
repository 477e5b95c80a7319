import ConfTree.Proofs.WellFormed.Growth
import ConfTree.Proofs.WellFormed.Replacing

/-!
New trees to be put in a place. From where the trees in use end, no way leads into a new tree nor out of it
(`Store.Aside`); so the top of a new tree fits any place in use, also after other nodes of the new tree were
replaced.
-/
namespace ConfTree

namespace Store

variable {s t : Store} {k r : Nat}

/-- A new tree that stands aside: no way leads from the nodes below `k` to those from `k` on, nor down the other
way, and `r` is the top of a tree of the latter. -/
structure Aside (k : Nat) (s : Store) (r : Nat) : Prop where
  loose : s.Loose r
  new : k ≤ r
  up : ∀ x y, x < k → s.Up x y → y < k
  below : ∀ c id, k ≤ c → id ∈ s.below c → k ≤ id
  replaced : ∀ n q, k ≤ n → (s.node n).replacedBy = some q → k ≤ q

theorem Sprouts.aside (form : s.WellFormed) (sprouts : s.Sprouts t [r]) : t.Aside s.nodes.size r where
  loose := (sprouts.loose r (List.mem_singleton.mpr rfl)).1
  new := (sprouts.loose r (List.mem_singleton.mpr rfl)).2
  up x y old up := by
    rw [Up,sprouts.grows.old x old] at up
    exact form.known x y up
  below := sprouts.grows.below
  replaced := sprouts.grows.replaced

theorem Loose.linked (loose : s.Loose r) (linked : s.Linked t) : t.Loose r where
  known := by rw [linked.size]; exact loose.known
  live := (linked.shaped.live r).mpr loose.live
  top := (linked.node r).parent.trans loose.top
  unbound := (linked.node r).isBound.trans loose.unbound
  unlisted c place := loose.unlisted c (linked.shaped.below c ▸ place)
  original n replaced := loose.original n ((linked.node n).replacedBy ▸ replaced)

namespace Aside

variable (aside : s.Aside k r)
include aside

theorem linked (linked : s.Linked t) : t.Aside k r where
  loose := aside.loose.linked linked
  new := aside.new
  up x y old up := aside.up x y old ((linked.shaped.up x y).mp up)
  below c id new place := aside.below c id new (linked.shaped.below c ▸ place)
  replaced n q new replaced := aside.replaced n q new ((linked.node n).replacedBy ▸ replaced)

theorem grows (grows : s.Grows t) : t.Aside k r where
  loose := aside.loose.grows grows
  new := aside.new
  up x y old up := by
    have known : x < s.nodes.size := Nat.lt_trans (Nat.lt_of_lt_of_le old aside.new) aside.loose.known
    rw [Up,grows.old x known] at up
    exact aside.up x y old up
  below c id new place := by
    by_cases old : c < s.nodes.size
    · rw [Store.below,grows.old c old] at place
      exact aside.below c id new place
    · exact Nat.le_trans (Nat.le_trans aside.new (Nat.le_of_lt aside.loose.known)) (grows.below c id (Nat.le_of_not_lt old) place)
  replaced n q new replaced := by
    by_cases old : n < s.nodes.size
    · rw [grows.old n old] at replaced
      exact aside.replaced n q new replaced
    · exact Nat.le_trans (Nat.le_trans aside.new (Nat.le_of_lt aside.loose.known)) (grows.replaced n q (Nat.le_of_not_lt old) replaced)

/-- Upward from old nodes there are old nodes only. -/
theorem stays {x y : Nat} (old : x < k) (way : Relation.ReflTransGen s.Up x y) : y < k := by
  induction way with
  | refl => exact old
  | tail _ up ih => exact aside.up _ _ ih up

theorem current_old {n : Nat} (old : n < k) : s.current n < k :=
  aside.stays old ((WellFormed.current_reaches n).lift (fun x => x) fun _ _ next => .inl next)

/-- A new node fits the place of any old one that was not replaced. -/
theorem fit {n : Nat} (old : n < k) (live : s.Live n) : WellFormed.Fit s n r where
  differ same := Nat.not_le_of_lt old (same ▸ aside.new)
  known := aside.loose.known
  live := live
  fresh := aside.loose.live
  unbound := aside.loose.unbound
  unlisted m member := aside.loose.unlisted m (mem_entries.mp member).2
  off c parent way := Nat.not_le_of_lt (aside.stays (aside.up n c old (.inr parent)) way) aside.new
  left c place := absurd place (aside.loose.unlisted c)

/-- The tree stands aside still when another node of it was replaced. -/
theorem graft {n r' : Nat} (grafted : s.Grafted t n r') (fit : WellFormed.Fit s n r') (differ : r ≠ n) (differ' : r ≠ r')
    (new : k ≤ n) (new' : k ≤ r') : t.Aside k r where
  loose := {
    known := by rw [grafted.size]; exact aside.loose.known
    live := grafted.live_other aside.loose.live differ
    top := (grafted.parent r differ').trans aside.loose.top
    unbound := by
      cases crown : (s.node n).isBound with
      | false => exact ((grafted.kept crown).2 r).trans aside.loose.unbound
      | true => exact ((grafted.crowned crown).2.2.2 r differ differ').trans aside.loose.unbound
    unlisted := by
      intro c place
      by_cases there : (s.node n).parent = some c
      · rw [grafted.taken c there] at place
        obtain ⟨x,member,image⟩ := List.mem_map.mp place
        split at image
        · exact differ' image.symm
        · exact aside.loose.unlisted c (image ▸ member)
      · exact aside.loose.unlisted c (grafted.below c there ▸ place)
    original := by
      intro x replaced
      by_cases same : x = n
      · rw [same,grafted.replaced] at replaced
        exact differ' (Option.some.inj replaced).symm
      · exact aside.loose.original x (grafted.others x same ▸ replaced) }
  new := aside.new
  up := by
    intro x y old up
    rcases grafted.up_of_up fit up with ⟨up,_⟩ | ⟨rfl,_⟩ | ⟨rfl,_⟩
    · exact aside.up x y old up
    · exact absurd new (Nat.not_le_of_lt old)
    · exact absurd new' (Nat.not_le_of_lt old)
  below := by
    intro c id from_new place
    by_cases there : (s.node n).parent = some c
    · rw [grafted.taken c there] at place
      obtain ⟨x,member,rfl⟩ := List.mem_map.mp place
      split
      · exact new'
      · exact aside.below c x from_new member
    · exact aside.below c id from_new (grafted.below c there ▸ place)
  replaced := by
    intro x q from_new replaced
    by_cases same : x = n
    · rw [same,grafted.replaced] at replaced
      exact Option.some.inj replaced ▸ new'
    · exact aside.replaced x q from_new (grafted.others x same ▸ replaced)

/-- What stands in a place of a new node is new, and no top of a tree. -/
theorem seat {c x : Nat} (form : s.WellFormed) (new : k ≤ c) (place : x ∈ s.below c) :
    k ≤ s.current x ∧ s.current x ≠ r ∧ s.current x < s.nodes.size ∧ s.Live (s.current x) := by
  have later {y : Nat} (way : Relation.ReflTransGen (fun x y => (s.node x).replacedBy = some y) x y) : k ≤ y := by
    induction way with
    | refl => exact aside.below c x new place
    | tail _ next ih => exact aside.replaced _ _ ih next
  refine ⟨later (WellFormed.current_reaches x),fun same => ?_,form.current_old (form.listed c x place),form.current_live x⟩
  rcases (WellFormed.current_reaches x).cases_tail with here | ⟨y,_,last⟩
  · exact aside.loose.unlisted c (same ▸ here.symm ▸ place)
  · exact aside.loose.original y (same ▸ last)

/-- A node below a new one is new, and no top of a tree. -/
theorem declaredChild? {id d : Nat} {part : Text} (form : s.WellFormed) (new : k ≤ id) (found : s.declaredChild? id part = some d) :
    k ≤ d ∧ d ≠ r ∧ d < s.nodes.size ∧ s.Live d := by
  rw [Store.declaredChild?] at found
  cases body : (s.node id).body with
  | mapping entries =>
    simp only [body] at found
    obtain ⟨e,entry,rfl⟩ := Option.map_eq_some_iff.mp found
    have member : e ∈ s.entries id := List.mem_of_find?_eq_some entry
    have slot : s.slot e ∈ s.below e := by
      have kind := form.kinds id e member
      rw [Store.kind,Node.kind] at kind
      rw [Store.slot,Store.below]
      cases body : (s.node e).body with
      | entry => exact List.mem_singleton.mpr rfl
      | _ => rw [body] at kind; cases kind
    exact aside.seat form (aside.below id e new (mem_entries.mp member).2) slot
  | sequence items =>
    simp only [body] at found
    split at found
    · have member := List.mem_of_getElem? found
      rw [Store.children,body] at member
      obtain ⟨x,place,rfl⟩ := List.mem_map.mp member
      exact aside.seat form new (by rw [Store.below,body]; exact place)
    · cases found
  | _ => simp [body] at found

/-- A path leads from the top of a new tree to another new node. -/
theorem declaredNode? {d : Nat} {path : Text} (form : s.WellFormed) (found : s.declaredNode? r path = some d) :
    k ≤ d ∧ d ≠ r ∧ d < s.nodes.size ∧ s.Live d := by
  have walk (parts : List Text) (nonempty : parts ≠ []) : ∀ id, k ≤ id → parts.foldlM s.declaredChild? id = some d →
      k ≤ d ∧ d ≠ r ∧ d < s.nodes.size ∧ s.Live d := by
    induction parts with
    | nil => exact absurd rfl nonempty
    | cons part rest ih =>
      intro id new found
      rw [List.foldlM_cons] at found
      obtain ⟨next,first,found⟩ := Option.bind_eq_some_iff.mp found
      have here := aside.declaredChild? form new first
      cases rest with
      | nil => exact Option.some.inj found ▸ here
      | cons => exact ih nofun next here.1 found
  exact walk _ (by simp [Text.splitOn]) r aside.new found

end Aside
end Store

end ConfTree
