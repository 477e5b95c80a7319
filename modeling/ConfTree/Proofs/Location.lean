import ConfTree.Proofs.Runs
import ConfTree.Tree.Edit

/-!
Where a node stands: the parts of its name and how far it is below the root of the session's tree
(`Store.Located`). Both are read off the links upward, so they last as long as the nodes above keep their
places; `Anchored` says so of all stores that differ only inside a region of nodes.
-/
namespace ConfTree

variable {s t u : Store} {x y container : Nat} {path : List Text} {level : Nat}

namespace Store

theorem follow_of_live (live : (s.node x).replacedBy = none) (steps : Nat) : s.follow steps x = x := by
  cases steps <;> simp [follow,live]

/-- A node that was not replaced stands in its own place. -/
theorem current_of_live (live : (s.node x).replacedBy = none) : s.current x = x := follow_of_live live _

/-- A node of the session's tree, by the parts of its name and its distance from the root. -/
structure Located (s : Store) (x : NodeId) (path : List Text) (level : Nat) : Prop where
  live : (s.node x).replacedBy = none
  parts : ∀ steps, level < steps → s.partsUpTo steps x = .ok path
  bound : ∀ steps, level < steps → ∃ top, s.upTo (fun _ => false) steps x = some top ∧ (s.node top).isBound = true

namespace Located

theorem root (live : (s.node x).replacedBy = none) (top : (s.node x).parent = none) (bound : (s.node x).isBound = true) :
    s.Located x [] 0 where
  live := live
  parts steps positive := by
    obtain ⟨steps,rfl⟩ : ∃ n, steps = n + 1 := ⟨steps - 1,by omega⟩
    rw [partsUpTo,current_of_live live,top]
  bound steps positive := by
    obtain ⟨steps,rfl⟩ : ∃ n, steps = n + 1 := ⟨steps - 1,by omega⟩
    have above : s.above? x = none := by rw [above?,current_of_live live,top]; rfl
    simp [upTo,current_of_live live,above,bound]

/-- A node below a located one, when `childPartsWith` gives its name from that of the node above. -/
theorem below (above : s.Located container path level) (live : (s.node x).replacedBy = none)
    (parent : (s.node x).parent = some container) {full : List Text} {distance : Nat} (further : level ≤ distance)
    (named : ∀ steps, distance < steps → s.childPartsWith (s.partsUpTo steps) container x = .ok full) :
    s.Located x full (distance + 1) where
  live := live
  parts steps deep := by
    obtain ⟨steps,rfl⟩ : ∃ n, steps = n + 1 := ⟨steps - 1,by omega⟩
    rw [partsUpTo,current_of_live live,parent]
    exact named steps (by omega)
  bound steps deep := by
    obtain ⟨steps,rfl⟩ : ∃ n, steps = n + 1 := ⟨steps - 1,by omega⟩
    have up : s.above? x = some container := by
      rw [above?,current_of_live live,parent,Option.map_some,current_of_live above.live]
    rw [upTo,if_neg Bool.false_ne_true,up]
    exact above.bound steps (by omega)

/-- An item of a located sequence. -/
theorem item (above : s.Located container path level) {items declared : List NodeId} {isSettled : Bool} {i : Nat}
    (body : (s.node container).body = .sequence items declared isSettled) (place : items.idxOf? x = some i)
    (live : (s.node x).replacedBy = none) (parent : (s.node x).parent = some container) :
    s.Located x (path ++ [.ofNat i]) (level + 1) := by
  refine above.below live parent (Nat.le_refl _) fun steps deep => ?_
  rw [childPartsWith,body]
  simp only [place,above.parts steps deep]
  rfl

/-- An entry of a located mapping. -/
theorem entry (above : s.Located container path level) {entries : List NodeId} {isSettled : Bool}
    (body : (s.node container).body = .mapping entries isSettled) (member : x ∈ entries)
    (live : (s.node x).replacedBy = none) (parent : (s.node x).parent = some container) :
    s.Located x (path ++ [.concat ["*",s.entryKey x]]) (level + 1) := by
  refine above.below live parent (Nat.le_refl _) fun steps deep => ?_
  rw [childPartsWith,body]
  simp only [List.contains_iff_mem.mpr member,if_true,above.parts steps deep]
  rfl

/-- The value of an entry of a located mapping. -/
theorem value (above : s.Located container path level) {entries : List NodeId} {isSettled : Bool}
    (body : (s.node container).body = .mapping entries isSettled) (member : y ∈ entries)
    {head : EntryHead} {slot declared : NodeId} {renamed : Option Text} {modification : Progress Unit}
    {evaluated : Option Declaration} (entry : (s.node y).body = .entry head slot declared renamed modification evaluated)
    (entry_live : (s.node y).replacedBy = none) (entry_parent : (s.node y).parent = some container)
    (live : (s.node x).replacedBy = none) (parent : (s.node x).parent = some y) :
    s.Located x (path ++ [head.key.name]) (level + 2) := by
  refine (above.entry body member entry_live entry_parent).below live parent (Nat.le_refl _) fun steps deep => ?_
  rw [childPartsWith,entry]
  simp only [entry_parent,above.parts steps (by omega)]
  rfl

theorem name (located : s.Located x path level) (room : level ≤ s.nodes.size) : s.name x = .ok (.join "." path) := by
  rw [Store.name,Store.parts,located.parts _ (by omega)]
  rfl

theorem top_bound (located : s.Located x path level) (room : level ≤ s.nodes.size) :
    ∃ top, s.top? x = some top ∧ (s.node top).isBound = true := located.bound _ (by omega)

theorem isBound (located : s.Located x path level) (room : level ≤ s.nodes.size) : s.isBound x = true := by
  obtain ⟨top,found,bound⟩ := located.top_bound room
  rw [Store.isBound,found]
  exact bound

theorem nameOf_run (located : s.Located x path level) (room : level ≤ s.nodes.size) :
    Runs (StoreM.nameOf x) s (.ok (.join "." path)) s :=
  StoreM.nameOf_of_name (located.name room)

theorem requireSession_run (located : s.Located x path level) (room : level ≤ s.nodes.size) :
    Runs (StoreM.requireSession x) s (.ok ()) s := by
  obtain ⟨top,found,_⟩ := located.top_bound room
  refine Runs.bind StoreM.get_run ?_
  rw [found]
  refine Runs.bind StoreM.get_run ?_
  rw [located.isBound room]
  exact Runs.ok _ _

end Located

/-! ## Change inside a region -/

/-- The second store has the nodes of the first one, the same outside a region. -/
structure Frame (inside : NodeId → Prop) (s t : Store) : Prop where
  grows : s.nodes.size ≤ t.nodes.size
  same : ∀ id : Nat, id < s.nodes.size → ¬ inside id → t.node id = s.node id

namespace Frame

variable {inside other : NodeId → Prop}

theorem refl (inside : NodeId → Prop) (s : Store) : Frame inside s s := ⟨(Nat.le_refl _),fun _ _ _ => rfl⟩

/-- Change in another region counts only as far as it concerns nodes that were there at first. -/
theorem followed (first : Frame inside s t) (second : Frame other t u) (covers : ∀ id : Nat, id < s.nodes.size → other id → inside id) :
    Frame inside s u where
  grows := Nat.le_trans first.grows second.grows
  same id old apart := (second.same id (Nat.lt_of_lt_of_le old first.grows) fun within => apart (covers id old within)).trans
    (first.same id old apart)

theorem trans (first : Frame inside s t) (second : Frame inside t u) : Frame inside s u :=
  first.followed second fun _ _ within => within

theorem mono (frame : Frame inside s t) (covers : ∀ id : Nat, id < s.nodes.size → inside id → other id) : Frame other s t where
  grows := frame.grows
  same id old apart := frame.same id old fun within => apart (covers id old within)

theorem update {f : Node → Node} (within : inside x) : Frame inside s (s.update x f) where
  grows := by simp
  same id _ apart := node_update_ne fun same => apart (same ▸ within)

theorem push {n : Node} : Frame inside s (s.push n) where
  grows := by simp
  same id old _ := node_push_old old

theorem inSession {f : Session → Session} : Frame inside s (s.inSession f) := ⟨(Nat.le_refl _),fun _ _ _ => rfl⟩

end Frame

/-- Whatever becomes of the nodes of a region that `x` is in, as long as `x` keeps its own place, it is
located where it is. -/
def Anchored (s : Store) (inside : NodeId → Prop) (x : NodeId) (path : List Text) (level : Nat) : Prop :=
  ∀ t, Frame inside s t → (t.node x).parent = (s.node x).parent → (t.node x).isBound = (s.node x).isBound →
    (t.node x).replacedBy = none → t.Located x path level

end Store
end ConfTree
