import ConfTree.Proofs.Discipline.Editing
import ConfTree.Proofs.Edits
import ConfTree.Proofs.Location
import ConfTree.Proofs.Readings

/-!
Transforms. No work takes a transform from a node or puts one before it: they are only added, at the end
(`Additive.ofDepth`). A node that takes the place of another one has the transforms of that behind its own
(`transforms_replaceWith`). So those that were asked of a node before it gave way are asked of what stands in its place
at any later time, in the same order (`Readings.transforms_survive`).
-/
namespace ConfTree

open StoreM

variable {α : Type} {s t u : Store}

/-- The transforms of each node are the first ones that it has later. -/
structure Store.Additive (s t : Store) : Prop where
  mapping : ∀ id, s.kind id = .mapping → t.kind id = .mapping
  transforms : ∀ id, (s.node id).transforms <+: (t.node id).transforms

namespace Store.Additive

theorem of_node (same : ∀ id, t.node id = s.node id) : s.Additive t where
  mapping id mapping := by rwa [kind,same]
  transforms id := by simp only [same,List.prefix_rfl]

theorem trans (first : s.Additive t) (second : t.Additive u) : s.Additive u where
  mapping id mapping := second.mapping id (first.mapping id mapping)
  transforms id := (first.transforms id).trans (second.transforms id)

theorem update {id : NodeId} {f : Node → Node} (kind : (f (s.node id)).kind = (s.node id).kind)
    (adds : (s.node id).transforms <+: (f (s.node id)).transforms) : s.Additive (s.update id f) where
  mapping other mapping := by
    rw [Store.kind,node_update]
    split
    · next here => rw [here.1,kind,← here.1]; exact mapping
    · exact mapping
  transforms other := by
    rw [node_update]
    split
    · next here => rw [here.1]; exact adds
    · exact List.prefix_rfl

theorem push (n : Node) : s.Additive (s.push n) where
  mapping id mapping := by rw [Store.kind,node_push_old (old_of_mapping mapping)]; exact mapping
  transforms id := by
    rcases Nat.lt_or_ge id s.nodes.size with old | new
    · simp only [node_push_old old,List.prefix_rfl]
    · rw [node_of_size_le new]
      exact List.nil_prefix

end Store.Additive

/-- The discipline of adding transforms only, at the end. -/
def Discipline.additive : Discipline where
  Fits _ := True
  Reaches := Store.Additive
  refl _ := .of_node fun _ => rfl
  trans _ _ _ := .trans
  alike _ _ alike _ := ⟨trivial,.of_node alike.node⟩

/-- The action adds transforms only, at the end. -/
abbrev Additive (a : StoreM α) : Prop := Discipline.additive.Keeps a

namespace Additive

open Discipline

theorem modifyNodeAt {id : NodeId} {f : Node → Node} (kind : (f (s.node id)).kind = (s.node id).kind)
    (adds : (s.node id).transforms <+: (f (s.node id)).transforms) : Discipline.additive.KeepsAt s (modifyNode id f) := by
  intro r t _ run
  obtain ⟨_,rfl⟩ := Runs.unique modifyNode_run run
  exact ⟨trivial,.update kind adds⟩

theorem modifySession (f : Session → Session) : Additive (modifySession f) := by
  intro s r t _ run
  obtain ⟨_,rfl⟩ := Runs.unique modifySession_run run
  exact ⟨trivial,.of_node fun _ => rfl⟩

theorem newNode (n : Node) : Additive (newNode n) := by
  intro s r t _ run
  obtain ⟨_,rfl⟩ := Runs.unique newNode_run run
  exact ⟨trivial,.push n⟩

theorem bearing : additive.Bearing where
  marked _ _ body _ adds _ := modifyNodeAt (by rw [Node.kind,body,← Node.kind]) (adds _)
  swapped s id b same := modifyNodeAt (by rw [Node.kind,← Body.kind_outline,same,Body.kind_outline,← Node.kind]) List.prefix_rfl
  rooted _ := modifySession _
  grown _ _ := newNode _
  entered _ _ _ := newNode _
  fits _ := trivial
  mapping _ _ id additive := additive.mapping id
  noted _ _ _ akin := .update akin.kind akin.transforms
  counted _ _ := .of_node fun _ => rfl
  listed _ _ := modifySession _
  computing s _ _ _ keeps := computing_keeps modifySession (fun _ _ => modifyNodeAt rfl List.prefix_rfl) keeps s
  modifying s _ _ _ keeps := modifying_keeps modifySession (fun state _ => modifyNodeAt (Resolve.modified_kind state _) List.prefix_rfl) keeps s

/-- Whatever the work on a tree does, it adds transforms only, at the end. -/
theorem ofDepth (host : Host) (depth : Nat) : additive.Sound (Calls.ofDepth host depth) := bearing.ofDepth host depth

end Additive

/-! ## Adding -/

/-- The transform that a modifier adds to a node, if that is all it does. -/
def Modifier.transform? : Modifier → Option Transform
  | .cast function => some (.call function)
  | .values choices => some (.among choices)
  | _ => none

/-- The store with a transform added to a node. -/
def Store.passing (s : Store) (node : NodeId) (transform : Transform) : Store :=
  s.update node fun n => { n with transforms := n.transforms ++ [transform] }

/-- A modifier that adds a transform leaves the node where it is. -/
theorem apply_transform {host : Host} {calls : Calls} {m : ModifierObject} {transform : Transform} (node : NodeId) (s : Store)
    (adds : m.modifier.transform? = some transform) :
    Runs (Modify.apply host calls m node) s (.ok none) (s.passing node transform) := by
  obtain ⟨id,modifier⟩ := m
  cases modifier <;> cases adds <;> exact modifyNode_run.bind (Runs.ok _ _)

/-- Casts and lists of choices are added in the order in which they are declared. -/
theorem applyAll_transforms (host : Host) (depth : Nat) {node : NodeId} (old : node < s.nodes.size)
    (live : (s.node node).replacedBy = none) {ms : List ModifierObject} (adds : ∀ m ∈ ms, m.modifier.transform?.isSome) :
    ∃ t, Runs (Modify.applyAll (Calls.ofDepth host (depth + 1)) node ms) s (.ok node) t ∧
      (t.node node).transforms = (s.node node).transforms ++ ms.filterMap fun m => m.modifier.transform? := by
  induction ms generalizing s with
  | nil => exact ⟨s,Runs.ok _ _,(List.append_nil _).symm⟩
  | cons m rest ih =>
    obtain ⟨first,later⟩ := List.forall_mem_cons.mp adds
    obtain ⟨transform,found⟩ := Option.isSome_iff_exists.mp first
    have here : (s.passing node transform).node node = { s.node node with transforms := (s.node node).transforms ++ [transform] } :=
      Store.node_update_self old
    have live' : ((s.passing node transform).node node).replacedBy = none := by rw [here]; exact live
    have place : Runs (current node) (s.passing node transform) (.ok ((s.passing node transform).current node))
        (s.passing node transform) := current_run
    rw [Store.current_of_live live'] at place
    obtain ⟨t,run,transforms⟩ := ih (by simpa [Store.passing] using old) live' later
    refine ⟨t,((apply_transform node s found).bind place).bind run,?_⟩
    rw [transforms,here,List.filterMap_cons,found,List.append_assoc]
    rfl

/-! ## Replacing -/

namespace Store

variable {x y id : Nat} {body : Body}

/-- Writing something else leaves the transforms alone. -/
theorem transforms_update {f : Node → Node} (same : ∀ n : Node, (f n).transforms = n.transforms) :
    ((s.update id f).node x).transforms = (s.node x).transforms := by
  rw [node_update]
  split
  · rw [same]
  · rfl

theorem transforms_adopted {parent : Nat} {children : List Nat} :
    ((s.adopted parent children).node x).transforms = (s.node x).transforms := by
  induction children generalizing s with
  | nil => rfl
  | cons child rest ih => exact (ih (s := s.update child _)).trans (transforms_update (by simp))

theorem transforms_crowned : ((s.crowned x y).node id).transforms = (s.node id).transforms := by
  rw [crowned]
  split
  · rw [node_inSession,transforms_update (by simp),transforms_update (by simp),transforms_update (by simp)]
  · rw [transforms_update (by simp)]

theorem transforms_handed (old : y < s.nodes.size) :
    ((s.handed x y).node y).transforms = (s.node y).transforms ++ (s.node x).transforms := by
  rw [handed,transforms_update (by simp),node_update_self old]

/-- What takes the place of a node has the transforms of that behind its own. -/
theorem Replaced.transforms (replaced : s.Replaced x y t) (old : y < s.nodes.size) :
    (t.node y).transforms = (s.node y).transforms ++ (s.node x).transforms := by
  cases replaced with
  | child parent swaps =>
    rw [swapped,transforms_handed (by simpa using old),transforms_adopted,transforms_adopted,transforms_update (by simp),
      transforms_update (by simp)]
  | top parent => rw [transforms_handed (by simpa using old),transforms_crowned,transforms_crowned]

end Store

theorem transforms_replaceWith {id y : NodeId} {v : NodeId} (run : Runs (replaceWith id y) s (.ok v) t) (old : y < s.nodes.size)
    (differ : y ≠ s.current id) : (t.node y).transforms = (s.node y).transforms ++ (s.node (s.current id)).transforms := by
  rcases replaceWith_inv run with ⟨same,_⟩ | ⟨⟨_,failed⟩,_⟩ | ⟨u,replaced,alike,_⟩
  · exact absurd same differ
  · cases failed
  · rw [alike.node,replaced.transforms old]

/-- What was asked of a node before it gave way is asked of the node in its place whatever is read afterwards. -/
theorem Readings.transforms_survive {host : Host} {depth : Nat} {id y v : NodeId} (run : Runs (replaceWith id y) s (.ok v) t)
    (old : y < s.nodes.size) (differ : y ≠ s.current id) (readings : Readings (Calls.ofDepth host depth) t u) :
    (s.node y).transforms ++ (s.node (s.current id)).transforms <+: (u.node y).transforms := by
  have kept := readings.keeps (Additive.ofDepth host depth).judged (Additive.modifySession _) trivial
  rw [← transforms_replaceWith run old differ]
  exact kept.2.transforms y

end ConfTree
