import Mathlib.Algebra.Order.BigOperators.Group.Finset
import ConfTree.Proofs.Termination.Sowing
import ConfTree.Proofs.WellFormed.Replacing

/-!
Generations. A tree that is put in a place by an override is one generation after the container of the place, so
the names of its nodes have at least as many parts as their generation says (`Graded.lt_parts`), and from some
generation on no name is the target of an override. So what may still be put in the places of a node has a price
that only depends on its generation (`Bounds.price`), and all the work that is left costs so much
(`Store.cost`).
-/
namespace ConfTree

open StoreM

/-! ## Bounds -/

/-- Bounds of overrides. -/
structure Bounds where
  /-- more than the length of each target -/
  reach : Nat
  /-- as many nodes as the tree of any value has -/
  bulk : Nat

/-- What may be put in a place of a node, when trees may be put in places of it for so many generations on. -/
def Bounds.price (b : Bounds) : Nat → Nat
  | 0 => 0
  | generations + 1 => b.bulk * (b.price generations + 3)

/-- The target of an override is shorter than the bound, and the tree of its value is no larger and declares no
modifiers. -/
structure Override.Within (b : Bounds) (o : Override) : Prop where
  short : o.target.length < b.reach
  small : ∀ c, Content.ofValue o.target o.value = .ok c → c.size ≤ b.bulk ∧ c.Unmodified

/-- A text joined by points has at most one part more than it has units. -/
theorem Text.length_le_join (parts : List Text) : parts.length ≤ (Text.join "." parts).length + 1 := by
  induction parts with
  | nil => exact Nat.zero_le _
  | cons part rest ih =>
    cases rest with
    | nil => simp
    | cons next rest =>
      simp only [join,length,List.map_cons,List.intercalate,List.intersperse_cons_cons,List.flatten_cons,List.length_append,
        List.length_cons] at ih ⊢
      have point : ("." : Text).units.length = 1 := rfl
      omega

namespace Store

variable {b : Bounds} {g : Nat → Nat} {s t u : Store}

/-- A store without modifiers, in which what stands in a place belongs there, with a generation for each node. -/
structure Graded (b : Bounds) (g : Nat → Nat) (s : Store) : Prop where
  form : s.WellFormed
  seats : ∀ c id, id ∈ s.below c → (s.node id).parent = some c ∧ s.Live id
  homes : ∀ id, s.kind id = .entry → ∃ m, (s.node id).parent = some m ∧ s.kind m = .mapping
  unmodified : ∀ id, (s.node id).body.Unmodified
  root : ∀ id, (s.node id).isBound = true → g id = 0
  replaced : ∀ x y, (s.node x).replacedBy = some y → g x ≤ g y
  parent : ∀ x p, (s.node x).parent = some p → g x ≤ g p + 1
  entry : ∀ e m, (s.node e).parent = some m → s.kind e = .entry → g e ≤ g m
  overrides : ∀ o ∈ s.session.overrides, o.Within b

/-- What the work that is left takes. -/
def cost (b : Bounds) (g : Nat → Nat) (s : Store) : Nat :=
  ∑ x ∈ Finset.range s.nodes.size, (s.node x).toll (b.price (b.reach - g x))

/-- The work that is left can be done with so much. -/
def Affords (b : Bounds) (n : Nat) (s : Store) : Prop := ∃ g, s.Graded b g ∧ s.cost b g ≤ n

theorem Affords.mono {m n : Nat} (affords : s.Affords b m) (le : m ≤ n) : s.Affords b n := by
  obtain ⟨g,graded,cost⟩ := affords
  exact ⟨g,graded,Nat.le_trans cost le⟩

/-- What has the same links, declares no modifiers either and has overrides within the bounds is graded as well. -/
theorem Graded.shaped (graded : s.Graded b g) (shaped : s.Shaped t) (form : t.WellFormed)
    (unmodified : ∀ id, (t.node id).body.Unmodified) (root : ∀ id, (t.node id).isBound = true → g id = 0)
    (overrides : ∀ o ∈ t.session.overrides, o.Within b) : t.Graded b g where
  form := form
  seats c id place := by
    rw [(shaped.node id).parent,shaped.live]
    exact graded.seats c id (shaped.below c ▸ place)
  homes id kind := by
    obtain ⟨m,parent,mapping⟩ := graded.homes id ((shaped.kind id).symm.trans kind)
    exact ⟨m,(shaped.node id).parent.trans parent,(shaped.kind m).trans mapping⟩
  unmodified := unmodified
  root := root
  replaced x y next := graded.replaced x y ((shaped.node x).replacedBy ▸ next)
  parent x p parent := graded.parent x p ((shaped.node x).parent ▸ parent)
  entry e m parent kind := graded.entry e m ((shaped.node e).parent ▸ parent) ((shaped.kind e).symm.trans kind)
  overrides := overrides

/-! ## Names -/

namespace WellFormed

theorem current_current (form : s.WellFormed) (id : Nat) : s.current (s.current id) = s.current id :=
  current_of_live (form.current_live id)

theorem upTo_current (form : s.WellFormed) (stop : Node → Bool) (steps id : Nat) :
    s.upTo stop steps (s.current id) = s.upTo stop steps id := by
  cases steps with
  | zero => rfl
  | succ steps => simp only [upTo,above?,form.current_current]

end WellFormed

namespace Graded

variable (graded : s.Graded b g)
include graded

theorem entry_live {e : Nat} (kind : s.kind e = .entry) : s.Live e := by
  obtain ⟨m,parent,mapping⟩ := graded.homes e kind
  exact graded.form.pinned e m parent mapping

theorem current_le (id : Nat) : g id ≤ g (s.current id) := by
  have along {y : Nat} (way : Relation.ReflTransGen (fun x y => (s.node x).replacedBy = some y) id y) : g id ≤ g y := by
    induction way with
    | refl => exact Nat.le_refl _
    | tail _ next ih => exact Nat.le_trans ih (graded.replaced _ _ next)
  exact along (WellFormed.current_reaches id)

/-- Below the session's root the name of a node has more parts than generations were before its container. -/
theorem lt_partsUpTo {steps steps' id top : Nat} {parts : List Text} (above : s.upTo (fun _ => false) steps' id = some top)
    (bound : (s.node top).isBound = true) (named : s.partsUpTo steps id = .ok parts) :
    g id ≤ parts.length ∧ ∀ p, (s.node (s.current id)).parent = some p → g p < parts.length := by
  induction steps generalizing steps' id parts with
  | zero => cases named
  | succ steps ih =>
    obtain ⟨steps',rfl⟩ : ∃ k, steps' = k + 1 := by
      cases steps' with
      | zero => cases above
      | succ k => exact ⟨k,rfl⟩
    have here := graded.current_le id
    rw [partsUpTo] at named
    rw [upTo,if_neg Bool.false_ne_true,above?] at above
    cases parent : (s.node (s.current id)).parent with
    | none =>
      rw [parent] at above
      obtain rfl := Option.some.inj above
      have zero := graded.root _ bound
      exact ⟨by omega,fun q same => by cases same⟩
    | some p =>
      have step := graded.parent _ p parent
      rw [parent] at above named
      simp only [Option.map_some] at above
      rw [graded.form.upTo_current] at above
      suffices enough : g p < parts.length by
        refine ⟨by omega,fun q same => ?_⟩
        obtain rfl := Option.some.inj same
        exact enough
      -- the name of the container that the child's name follows
      have onto {m k : Nat} {more : List Text} (above : s.upTo (fun _ => false) k m = some top)
          (named : (do return (← s.partsUpTo steps m) ++ more) = Except.ok parts) : g m + more.length ≤ parts.length := by
        obtain ⟨front,first,last⟩ := ok_of_bind named
        cases last
        have := (ih above first).1
        rw [List.length_append]
        omega
      dsimp only at named
      rw [childPartsWith] at named
      cases body : (s.node p).body with
      | scalar =>
        simp only [body] at named
        obtain ⟨_,_,impossible⟩ := ok_of_bind named
        cases impossible
      | sequence items =>
        simp only [body] at named
        split at named
        · exact onto above named
        · obtain ⟨_,_,impossible⟩ := ok_of_bind named
          cases impossible
      | mapping entries =>
        simp only [body] at named
        split at named
        · exact onto above named
        · obtain ⟨_,_,impossible⟩ := ok_of_bind named
          cases impossible
      | entry head =>
        have kind : s.kind p = .entry := by rw [Store.kind,Node.kind,body]; rfl
        obtain ⟨m,home,_⟩ := graded.homes p kind
        simp only [body,home] at named
        have live : s.current p = p := current_of_live (graded.entry_live kind)
        cases steps' with
        | zero => cases above
        | succ k =>
          rw [upTo,if_neg Bool.false_ne_true,above?,live,home] at above
          simp only [Option.map_some] at above
          rw [graded.form.upTo_current] at above
          exact Nat.lt_of_le_of_lt (graded.entry p m home kind) (onto above named)

/-- Where a name is the target of an override, the container of the node is of an earlier generation than the bound. -/
theorem lt_reach {id p : Nat} {name : Text} {o : Override} (attached : s.isBound id = true) (parent : (s.node (s.current id)).parent = some p)
    (named : s.name id = .ok name) (listed : o ∈ s.session.overrides) (target : o.target = name) : g p < b.reach := by
  rw [isBound,top?,Option.any_eq_true] at attached
  obtain ⟨top,above,bound⟩ := attached
  obtain ⟨parts,parted,joined⟩ := ok_of_map named
  have deep := (graded.lt_partsUpTo above bound parted).2 p parent
  have short := (graded.overrides o listed).short
  have long : parts.length ≤ name.length + 1 := by
    rw [← joined]
    exact Text.length_le_join parts
  rw [target] at short
  omega

end Graded
end Store

/-! ## What costs nothing -/

/-- Two nodes with the same links, the second of which takes no more work, and has modifiers only if the first has. -/
structure Node.Eased (n n' : Node) : Prop extends Node.Linked n n' where
  unmodified : n.body.Unmodified → n'.body.Unmodified
  toll : ∀ price, n'.toll price ≤ n.toll price

namespace Node.Eased

variable {n n' n'' : Node}

theorem refl (n : Node) : n.Eased n := ⟨.refl n,fun unmodified => unmodified,fun _ => Nat.le_refl _⟩

theorem trans (first : n.Eased n') (second : n'.Eased n'') : n.Eased n'' :=
  ⟨first.toLinked.trans second.toLinked,fun unmodified => second.unmodified (first.unmodified unmodified),
    fun price => Nat.le_trans (second.toll price) (first.toll price)⟩

/-- A body of the same kind, places and key that takes no more work eases a node. -/
theorem of_body {body : Body} (kind : body.kind = n.body.kind) (below : body.below = n.body.below) (key : body.key = n.body.key)
    (unmodified : n.body.Unmodified → body.Unmodified) (toll : ∀ price, body.toll price ≤ n.body.toll price) :
    n.Eased { n with body } :=
  ⟨⟨⟨kind,below,key,rfl,rfl⟩,rfl⟩,unmodified,fun price => Nat.add_le_add_right (toll price) _⟩

/-- What is no link takes no more work, body and resolution apart. -/
theorem of_same (body : n'.body = n.body) (parent : n'.parent = n.parent) (replacedBy : n'.replacedBy = n.replacedBy)
    (isBound : n'.isBound = n.isBound) (resolution : n'.resolution = n.resolution) : n.Eased n' where
  kind := by rw [body]
  below := by rw [body]
  key := by rw [body]
  parent := parent
  replacedBy := replacedBy
  isBound := isBound
  unmodified unmodified := body ▸ unmodified
  toll price := by rw [Node.toll,Node.toll,body,resolution]

end Node.Eased

namespace Store

variable {b : Bounds} {g : Nat → Nat} {s t u : Store}

/-- Two stores all nodes of which have the same links, where no node of the second takes more work, and with the same
overrides, however often used. -/
structure Eased (s t : Store) : Prop where
  size : t.nodes.size = s.nodes.size
  node : ∀ id, (s.node id).Eased (t.node id)
  root : t.session.root = s.session.root
  overrides : ∀ o ∈ t.session.overrides, ∃ o' ∈ s.session.overrides, o.target = o'.target ∧ o.value = o'.value

namespace Eased

theorem of_alike (alike : s.Alike t) : s.Eased t where
  size := congrArg Array.size alike.nodes
  node id := alike.node id ▸ .refl _
  root := by rw [alike.session]
  overrides o listed := ⟨o,alike.session ▸ listed,rfl,rfl⟩

theorem trans (first : s.Eased t) (second : t.Eased u) : s.Eased u where
  size := second.size.trans first.size
  node id := (first.node id).trans (second.node id)
  root := second.root.trans first.root
  overrides o listed := by
    obtain ⟨o',listed,target,value⟩ := second.overrides o listed
    obtain ⟨o'',listed,target',value'⟩ := first.overrides o' listed
    exact ⟨o'',listed,target.trans target',value.trans value'⟩

theorem update {id : Nat} {f : Node → Node} (eased : (s.node id).Eased (f (s.node id))) : s.Eased (s.update id f) where
  size := size_update
  node other := by
    rw [node_update]
    split
    · next same => exact same.1 ▸ eased
    · exact .refl _
  root := rfl
  overrides o listed := ⟨o,listed,rfl,rfl⟩

theorem inSession {f : Session → Session} (root : (f s.session).root = s.session.root)
    (overrides : ∀ o ∈ (f s.session).overrides, ∃ o' ∈ s.session.overrides, o.target = o'.target ∧ o.value = o'.value) :
    s.Eased (s.inSession f) where
  size := rfl
  node _ := .refl _
  root := root
  overrides := overrides

variable (eased : s.Eased t)
include eased

theorem linked : s.Linked t := ⟨eased.size,fun id => (eased.node id).toLinked,eased.root⟩

theorem graded (graded : s.Graded b g) : t.Graded b g :=
  graded.shaped eased.linked.shaped (graded.form.linked eased.linked) (fun id => (eased.node id).unmodified (graded.unmodified id))
    (fun id bound => graded.root id ((eased.node id).isBound ▸ bound)) fun o listed => by
      obtain ⟨o',listed,target,value⟩ := eased.overrides o listed
      have within := graded.overrides o' listed
      refine ⟨target ▸ within.short,?_⟩
      rw [target,value]
      exact within.small

theorem cost_le : t.cost b g ≤ s.cost b g := by
  rw [cost,cost,eased.size]
  exact Finset.sum_le_sum fun x _ => (eased.node x).toll _

/-- What is saved at one node is saved. -/
theorem cost_add_le {id saved : Nat} (old : id < s.nodes.size)
    (less : (t.node id).toll (b.price (b.reach - g id)) + saved ≤ (s.node id).toll (b.price (b.reach - g id))) :
    t.cost b g + saved ≤ s.cost b g := by
  rw [cost,cost,eased.size]
  rw [← Finset.add_sum_erase _ _ (Finset.mem_range.mpr old),← Finset.add_sum_erase _ _ (Finset.mem_range.mpr old)]
  have others := Finset.sum_le_sum fun x (_ : x ∈ (Finset.range s.nodes.size).erase id) => (eased.node x).toll (b.price (b.reach - g x))
  omega

end Eased

end Store
end ConfTree
