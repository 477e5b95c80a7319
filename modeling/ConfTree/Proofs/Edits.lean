import ConfTree.Proofs.Judgement
import ConfTree.Tree.Edit

/-!
Edits: what building and replacing leave, as stores changed in a few places, and what is read at each node
afterwards.
-/
namespace ConfTree

open StoreM

/-! ## New parents -/

namespace Store

/-- The store with a parent given to nodes. -/
def adopted (s : Store) (parent : NodeId) (children : List NodeId) : Store :=
  children.foldl (fun s child => s.update child fun n => { n with parent := some parent }) s

variable {s : Store} {parent id : Nat} {children : List Nat}

@[simp] theorem size_adopted : (s.adopted parent children).nodes.size = s.nodes.size := by
  induction children generalizing s with
  | nil => rfl
  | cons child rest ih => exact (ih (s := s.update child _)).trans size_update

@[simp] theorem session_adopted : (s.adopted parent children).session = s.session := by
  induction children generalizing s with
  | nil => rfl
  | cons child rest ih => exact ih (s := s.update child _)

theorem node_adopted_of_not_mem (stranger : id ∉ children) : (s.adopted parent children).node id = s.node id := by
  induction children generalizing s with
  | nil => rfl
  | cons child rest ih =>
    obtain ⟨differ,stranger⟩ : id ≠ child ∧ id ∉ rest := by simpa using stranger
    exact (ih (s := s.update child _) stranger).trans (node_update_ne differ)

theorem node_adopted_of_mem (member : id ∈ children) (old : id < s.nodes.size) :
    (s.adopted parent children).node id = { s.node id with parent := some parent } := by
  induction children generalizing s with
  | nil => cases member
  | cons child rest ih =>
    by_cases later : id ∈ rest
    · refine (ih (s := s.update child _) later (by simpa using old)).trans ?_
      by_cases same : id = child
      · subst same
        rw [node_update_self old]
      · rw [node_update_ne same]
    · obtain rfl : id = child := (List.mem_cons.mp member).resolve_right later
      exact (node_adopted_of_not_mem (s := s.update id _) later).trans (node_update_self old)

end Store

theorem adopt_run (s : Store) (parent : NodeId) (children : List NodeId) :
    Runs (adopt parent children) s (.ok ()) (s.adopted parent children) := by
  induction children generalizing s with
  | nil => exact Runs.ok _ _
  | cons child rest ih =>
    rw [adopt,Runs.forM_cons]
    exact Runs.bind modifyNode_run (ih _)

theorem newParent_run (s : Store) (body : Body) (children : List NodeId) :
    Runs (newParent body children) s (.ok s.nodes.size) ((s.push (.fresh body)).adopted s.nodes.size children) :=
  newNode_run.bind ((adopt_run _ _ _).bind (Runs.ok _ _))

/-! ## Replacing -/

/-- The store after a node took the place of another one and was handed what was asked of that. -/
def Store.handed (s : Store) (x y : NodeId) : Store :=
  (s.update y fun n =>
    { n with
      isHidden := n.isHidden || (s.node x).isHidden
      isRequired := n.isRequired || (s.node x).isRequired
      transforms := n.transforms ++ (s.node x).transforms }).update x fun n => { n with replacedBy := some y }

theorem handOn_run (s : Store) (x y : NodeId) : Runs (handOn x y) s (.ok ()) (s.handed x y) :=
  getNode_run.bind (modifyNode_run.bind modifyNode_run)

namespace Store

/-- The store after a node was put in the place of a child. -/
def swapped (s : Store) (container x y : NodeId) (body : Body) : Store :=
  ((s.update container fun n => { n with body := body }).adopted container [y]).handed x y

variable {s : Store} {container x y id : Nat} {body : Body}

@[simp] theorem size_handed : (s.handed x y).nodes.size = s.nodes.size := by simp [handed]

@[simp] theorem session_handed : (s.handed x y).session = s.session := rfl

@[simp] theorem size_swapped : (s.swapped container x y body).nodes.size = s.nodes.size := by simp [swapped]

@[simp] theorem session_swapped : (s.swapped container x y body).session = s.session := by simp [swapped]

theorem node_handed_other (not_old : id ≠ x) (not_new : id ≠ y) : (s.handed x y).node id = s.node id := by
  rw [handed,node_update_ne not_old,node_update_ne not_new]

theorem node_handed_old (old : x < s.nodes.size) (differ : y ≠ x) :
    (s.handed x y).node x = { s.node x with replacedBy := some y } := by
  rw [handed,node_update_self (by simpa using old),node_update_ne (Ne.symm differ)]

theorem node_handed_new (old : y < s.nodes.size) (differ : y ≠ x) : (s.handed x y).node y =
    { s.node y with
      isHidden := (s.node y).isHidden || (s.node x).isHidden
      isRequired := (s.node y).isRequired || (s.node x).isRequired
      transforms := (s.node y).transforms ++ (s.node x).transforms } := by
  rw [handed,node_update_ne differ,node_update_self old]

theorem node_swapped_other (s : Store) (body : Body) (not_container : id ≠ container) (not_old : id ≠ x) (not_new : id ≠ y) :
    (s.swapped container x y body).node id = s.node id := by
  rw [swapped,node_handed_other not_old not_new,node_adopted_of_not_mem (by simpa using not_new),node_update_ne not_container]

theorem node_swapped_container (s : Store) (body : Body) (old : container < s.nodes.size) (not_old : container ≠ x) (not_new : container ≠ y) :
    (s.swapped container x y body).node container = { s.node container with body := body } := by
  rw [swapped,node_handed_other not_old not_new,node_adopted_of_not_mem (by simpa using not_new),node_update_self old]

theorem node_swapped_old (s : Store) (body : Body) (old : x < s.nodes.size) (differ : y ≠ x) (apart : container ≠ x) :
    (s.swapped container x y body).node x = { s.node x with replacedBy := some y } := by
  rw [swapped,node_handed_old (by simpa using old) differ,node_adopted_of_not_mem (by simpa using Ne.symm differ),
    node_update_ne (Ne.symm apart)]

/-- The new child is where the old one was, and was handed what was asked of that. -/
theorem node_swapped_new (s : Store) (body : Body) (old : y < s.nodes.size) (not_container : y ≠ container) (differ : y ≠ x)
    (apart : container ≠ x) : (s.swapped container x y body).node y =
    { s.node y with
      parent := some container
      isHidden := (s.node y).isHidden || (s.node x).isHidden
      isRequired := (s.node y).isRequired || (s.node x).isRequired
      transforms := (s.node y).transforms ++ (s.node x).transforms } := by
  rw [swapped,node_handed_new (by simpa using old) differ,node_adopted_of_mem (by simp) (by simpa using old),
    node_adopted_of_not_mem (by simpa using Ne.symm differ),node_update_ne not_container,node_update_ne (Ne.symm apart)]

/-- The store after a node was made the top of its tree, and the root of the session's tree if the other one was. -/
def crowned (s : Store) (top replacement : NodeId) : Store :=
  let s := s.update replacement fun n => { n with parent := none }
  if (s.node top).isBound then
    ((s.update top fun n => { n with isBound := false }).update replacement fun n => { n with isBound := true }).inSession
      fun session => { session with root := replacement }
  else s

@[simp] theorem size_crowned : (s.crowned x y).nodes.size = s.nodes.size := by
  rw [crowned]
  split <;> simp

theorem root_crowned (differ : y ≠ x) : (s.crowned x y).session.root = if (s.node x).isBound then y else s.session.root := by
  rw [crowned,node_update_ne (Ne.symm differ)]
  split <;> rfl

theorem node_crowned_other (not_old : id ≠ x) (not_new : id ≠ y) : (s.crowned x y).node id = s.node id := by
  rw [crowned]
  split
  · rw [node_inSession,node_update_ne not_new,node_update_ne not_old,node_update_ne not_new]
  · rw [node_update_ne not_new]

theorem node_crowned_old (differ : y ≠ x) (old : x < s.nodes.size) :
    (s.crowned x y).node x = { s.node x with isBound := false } := by
  have apart : x ≠ y := Ne.symm differ
  rw [crowned,node_update_ne apart]
  split
  · rw [node_inSession,node_update_ne apart,node_update_self (by simpa using old),node_update_ne apart]
  · next unbound =>
    rw [node_update_ne apart]
    exact congrArg (fun bound => { s.node x with isBound := bound }) (by simpa using unbound)

theorem node_crowned_new (differ : y ≠ x) (old : y < s.nodes.size) :
    (s.crowned x y).node y = { s.node y with parent := none, isBound := (s.node y).isBound || (s.node x).isBound } := by
  rw [crowned,node_update_ne (Ne.symm differ)]
  split
  · next bound =>
    rw [node_inSession,node_update_self (by simpa using old),node_update_ne differ,node_update_self old,bound,Bool.or_true]
  · next unbound =>
    have unbound : (s.node x).isBound = false := by simpa using unbound
    rw [node_update_self old,unbound,Bool.or_false]

end Store

theorem replaceTop_run (s : Store) (top replacement : NodeId) :
    Runs (replaceTop top replacement) s (.ok ()) (s.crowned top replacement) := by
  refine modifyNode_run.bind (getNode_run.bind ?_)
  rw [Store.crowned]
  split
  · exact modifyNode_run.bind (modifyNode_run.bind modifySession_run)
  · exact Runs.ok _ _

/-- The body of a container once a node was put in the place of another one. -/
inductive Body.Swaps (x y : NodeId) : Body → Body → Prop
  | item {items declared : List NodeId} {isSettled : Bool} {i : Nat} (place : items.idxOf? x = some i) :
      Swaps x y (.sequence items declared isSettled) (.sequence (items.set i y) declared isSettled)
  | value {head : EntryHead} {declared : NodeId} {renamed : Option Text} {modification : Progress Unit}
      {evaluated : Option Declaration} :
      Swaps x y (.entry head x declared renamed modification evaluated) (.entry head y declared renamed modification evaluated)

/-- The store after a node was put in the place of another one. -/
inductive Store.Replaced (s : Store) (x y : NodeId) : Store → Prop
  | child {p : NodeId} {body : Body} (parent : (s.node x).parent = some p)
      (swaps : Body.Swaps x y (s.node (s.current p)).body body) : Replaced s x y (s.swapped (s.current p) x y body)
  | top (parent : (s.node x).parent = none) : Replaced s x y ((s.crowned x y).handed x y)

variable {s t : Store}

theorem replaceChild_inv {container x y : NodeId} {r : Except Thrown Unit} (run : Runs (replaceChild container x y) s r t) :
    (∃ e, r = .error e) ∧ s.Alike t ∨ ∃ body, Body.Swaps x y (s.node container).body body ∧ r = .ok () ∧
      t = (s.update container fun n => { n with body }).adopted container [y] := by
  have rest := (Runs.bind_iff getNode_run).mp run
  cases body : (s.node container).body with
  | scalar => 
    rw [body] at rest
    exact .inl ((Refuses.after (.nameOf _) fun _ => .throwCause _).run rest)
  | mapping =>
    rw [body] at rest
    exact .inl ((Refuses.after (.nameOf _) fun _ => .throwCause _).run rest)
  | sequence items declared isSettled =>
    rw [body] at rest
    cases place : items.idxOf? x with
    | none =>
      simp only [place] at rest
      exact .inl ((Refuses.after (.nameOf _) fun _ => .after (.nameOf _) fun _ => .throwCause _).run rest)
    | some i =>
      simp only [place] at rest
      have placed := (Runs.bind_iff modifyNode_run).mp rest
      obtain ⟨rfl,rfl⟩ := Runs.unique placed (adopt_run _ _ _)
      exact .inr ⟨_,.item place,rfl,rfl⟩
  | entry head slot declared renamed modification evaluated =>
    rw [body] at rest
    dsimp only at rest
    split at rest
    · exact .inl ((Refuses.after (.nameOf _) fun _ => (Refuses.throwCause _).first _).run rest)
    · next same =>
      obtain rfl : x = slot := by simpa using same
      have placed := (Runs.bind_iff modifyNode_run).mp rest
      obtain ⟨rfl,rfl⟩ := Runs.unique placed (adopt_run _ _ _)
      exact .inr ⟨_,.value,rfl,rfl⟩

/-- Replacing changes nothing, or is refused, or puts the node in the place of the current one. -/
theorem replaceWith_inv {id y : NodeId} {r : Except Thrown NodeId} (run : Runs (replaceWith id y) s r t) :
    (y = s.current id ∧ r = .ok y ∧ t = s) ∨ (∃ e, r = .error e) ∧ s.Alike t ∨
      ∃ u, s.Replaced (s.current id) y u ∧ u.Alike t ∧ ∀ v, r = .ok v → v = y := by
  have handed {u : Store} (run : Runs (do
      handOn (s.current id) y
      discard (nameOf y)
      return y) u r t) : (u.handed (s.current id) y).Alike t ∧ ∀ v, r = .ok v → v = y := by
    rcases Runs.bind_inv ((Runs.bind_iff (handOn_run _ _ _)).mp run) with ⟨_,w,named,last⟩ | ⟨e,failed,rfl⟩
    · obtain ⟨rfl,rfl⟩ := Runs.pure_iff.mp last
      exact ⟨Quiet.alike (Quiet.nameOf y).map named,fun v same => (Except.ok.inj same).symm⟩
    · exact ⟨Quiet.alike (Quiet.nameOf y).map failed,nofun⟩
  have rest := (Runs.bind_iff current_run).mp run
  dsimp only at rest
  split at rest
  · next same =>
    obtain ⟨rfl,rfl⟩ := Runs.pure_iff.mp rest
    exact .inl ⟨same,by rw [same],rfl⟩
  · refine .inr ?_
    have rest := (Runs.bind_iff getNode_run).mp rest
    split at rest
    · next p parent =>
      rcases Runs.bind_inv ((Runs.bind_iff current_run).mp rest) with ⟨_,u,placed,last⟩ | ⟨e,failed,rfl⟩
      · rcases replaceChild_inv placed with ⟨⟨e,impossible⟩,_⟩ | ⟨body,swaps,_,rfl⟩
        · cases impossible
        · exact .inr ⟨_,.child parent swaps,handed last⟩
      · rcases replaceChild_inv failed with ⟨_,same⟩ | ⟨_,_,impossible,_⟩
        · exact .inl ⟨⟨e,rfl⟩,same⟩
        · cases impossible
    · next parent =>
      exact .inr ⟨_,.top parent,handed ((Runs.bind_iff (replaceTop_run _ _ _)).mp rest)⟩

/-! ## Ending -/

theorem replaceChild_ends (container child replacement : NodeId) : Ends (replaceChild container child replacement) := by
  have put (body : Body → Body) : Ends (do
      modifyBody container body
      adopt container [replacement]) := Judgement.Holds.bind (fun _ => ⟨_,_,modifyNode_run⟩) fun _ s => ⟨_,_,adopt_run s _ _⟩
  refine (Quiet.getNode container).judged.bind fun n => ?_
  dsimp only
  split
  · exact (Quiet.nameOf _).judged.bind fun _ => (Quiet.throwCause _).judged
  · exact (Quiet.nameOf _).judged.bind fun _ => (Quiet.throwCause _).judged
  · split
    · exact (Quiet.nameOf _).judged.bind fun _ => (Quiet.nameOf _).judged.bind fun _ => (Quiet.throwCause _).judged
    · exact put _
  · split
    · exact (Quiet.nameOf _).judged.bind fun _ => (Quiet.throwCause _).judged.bind fun _ => put _
    · exact put _

theorem replaceWith_ends (id replacement : NodeId) : Ends (replaceWith id replacement) := by
  have rest (node : NodeId) : Ends (do
      handOn node replacement
      discard (nameOf replacement)
      return replacement) :=
    Judgement.Holds.bind (fun s => ⟨_,_,handOn_run s _ _⟩) fun _ => (Quiet.nameOf _).judged.map.bind fun _ => .pure _
  refine (Quiet.current id).judged.bind fun node => ?_
  dsimp only
  split
  · exact .pure _
  · refine (Quiet.getNode node).judged.bind fun n => ?_
    split
    · exact (Quiet.current _).judged.bind fun _ => (replaceChild_ends _ _ _).bind fun _ => rest node
    · exact Judgement.Holds.bind (fun s => ⟨_,_,replaceTop_run s _ _⟩) fun _ => rest node

end ConfTree
