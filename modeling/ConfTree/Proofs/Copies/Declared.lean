import Mathlib.Data.List.Basic
import ConfTree.Proofs.Discipline.Editing
import ConfTree.Proofs.Edits

/-!
What nodes were declared with. No work on a tree changes the raw values, the items, the entries and the heads that
nodes were built with (`Faithful.ofDepth`), so a tree that was planted from some content is copied as that content
at any later time, whatever was put in the place of its parts (`Store.BuiltFrom`, `BuiltFrom.content`).
-/
namespace ConfTree

open StoreM

variable {α : Type} {s t u : Store}

/-- A body as it was when it was built. -/
def Body.built : Body → Body
  | .scalar raw _ => .scalar raw none
  | .sequence _ declared _ => .sequence declared declared false
  | .mapping entries _ => .mapping entries false
  | .entry head _ declared .. => .entry head declared declared none .pending none

theorem Body.kind_built (b : Body) : b.built.kind = b.kind := by cases b <;> rfl

theorem Body.built_of_frame {b b' : Body} (same : b'.frame = b.frame) : b'.built = b.built := by
  cases b <;> cases b' <;> cases same <;> rfl

theorem Body.built_of_outline {b b' : Body} (same : b'.outline = b.outline) : b'.built = b.built := by
  cases b <;> cases b' <;> cases same <;> rfl

/-- All nodes there were are what they were built as. -/
structure Store.Faithful (s t : Store) : Prop where
  grows : s.nodes.size ≤ t.nodes.size
  built : ∀ id : Nat, id < s.nodes.size → (t.node id).body.built = (s.node id).body.built

namespace Store.Faithful

theorem of_nodes (nodes : t.nodes = s.nodes) : s.Faithful t where
  grows := Nat.le_of_eq (congrArg Array.size nodes.symm)
  built id _ := by rw [Store.node,Store.node,nodes]

theorem trans (first : s.Faithful t) (second : t.Faithful u) : s.Faithful u where
  grows := Nat.le_trans first.grows second.grows
  built id old := (second.built id (Nat.lt_of_lt_of_le old first.grows)).trans (first.built id old)

theorem update {id : Nat} {f : Node → Node} (same : (f (s.node id)).body.built = (s.node id).body.built) :
    s.Faithful (s.update id f) where
  grows := by simp
  built other _ := by
    rw [node_update]
    split
    · next here => rw [here.1,same]
    · rfl

theorem push (n : Node) : s.Faithful (s.push n) where
  grows := by simp
  built id old := by rw [node_push_old old]

end Store.Faithful

/-- The discipline of leaving all nodes what they were built as. -/
def Discipline.faithful : Discipline where
  Fits _ := True
  Reaches := Store.Faithful
  refl _ := .of_nodes rfl
  trans _ _ _ := .trans
  alike _ _ alike _ := ⟨trivial,.of_nodes alike.nodes⟩

/-- The action leaves all nodes what they were built as. -/
abbrev Faithful (a : StoreM α) : Prop := Discipline.faithful.Keeps a

namespace Faithful

open Discipline

theorem modifyNodeAt {id : NodeId} {f : Node → Node} (same : (f (s.node id)).body.built = (s.node id).body.built) :
    Discipline.faithful.KeepsAt s (modifyNode id f) := by
  intro r t _ run
  obtain ⟨_,rfl⟩ := Runs.unique modifyNode_run run
  exact ⟨trivial,.update same⟩

theorem modifyNode {id : NodeId} {f : Node → Node} (same : ∀ n : Node, (f n).body.built = n.body.built) : Faithful (modifyNode id f) :=
  fun _ => modifyNodeAt (same _)

theorem modifySession (f : Session → Session) : Faithful (modifySession f) := by
  intro s r t _ run
  obtain ⟨_,rfl⟩ := Runs.unique modifySession_run run
  exact ⟨trivial,.of_nodes rfl⟩

theorem newNode (n : Node) : Faithful (newNode n) := by
  intro s r t _ run
  obtain ⟨_,rfl⟩ := Runs.unique newNode_run run
  exact ⟨trivial,.push n⟩

theorem edited : faithful.Edited fun _ => True where
  marked _ _ body _ _ := modifyNode fun n => congrArg Body.built (body n)
  swapped _ _ _ same := modifyNodeAt (Body.built_of_outline same)
  rooted _ := modifySession _
  grown _ _ := newNode _
  entered _ _ _ := newNode _

theorem built_modified (state : Progress Unit) (n : Node) : (Resolve.modified state n).body.built = n.body.built := by
  obtain ⟨body⟩ := n
  cases body <;> rfl

theorem built_computed (state : Progress Value) (n : Node) : (Resolve.computed state n).body.built = n.body.built := rfl

theorem bearing : faithful.Bearing where
  toEdited := edited
  fits _ := trivial
  mapping s t id reaches kind := by
    have same := congrArg Body.kind (reaches.built id (Store.old_of_mapping kind))
    rw [Body.kind_built,Body.kind_built] at same
    exact same.trans kind
  noted _ _ _ akin := .update (Body.built_of_frame akin.body)
  counted _ _ := .of_nodes rfl
  listed _ _ := modifySession _
  computing s _ _ _ keeps := computing_keeps modifySession (fun state => modifyNode (built_computed state)) keeps s
  modifying s _ _ _ keeps := modifying_keeps modifySession (fun state => modifyNode (built_modified state)) keeps s

/-- Whatever the work on a tree does, all nodes stay what they were built as. -/
theorem ofDepth (host : Host) (depth : Nat) : faithful.Sound (Calls.ofDepth host depth) := bearing.ofDepth host depth

end Faithful

/-! ## Declared content -/

/-- A node that was built from some content, its parts before it. -/
inductive Store.BuiltFrom (s : Store) : Nat → Content → Prop
  | scalar {id : Nat} {raw : Literal} (old : id < s.nodes.size) (body : (s.node id).body.built = .scalar raw none) :
      BuiltFrom s id (.scalar raw)
  | list {id : Nat} {items : List Nat} {cs : List Content} (old : id < s.nodes.size)
      (body : (s.node id).body.built = .sequence items items false) (sizes : items.length = cs.length)
      (before : ∀ d ∈ items, d < id)
      (parts : ∀ (i d : Nat) c, items[i]? = some d → cs[i]? = some c → BuiltFrom s d c) : BuiltFrom s id (.list cs)
  | mapping {id : Nat} {entries values : List Nat} {cs : List (EntryHead × Content)} (old : id < s.nodes.size)
      (body : (s.node id).body.built = .mapping entries false) (sizes : entries.length = cs.length) (sizes' : values.length = cs.length)
      (before : ∀ d ∈ values, d < id)
      (heads : ∀ (i e d : Nat) head c, entries[i]? = some e → values[i]? = some d → cs[i]? = some (head,c) →
        e < s.nodes.size ∧ (s.node e).body.built = .entry head d d none .pending none)
      (parts : ∀ (i d : Nat) head c, values[i]? = some d → cs[i]? = some (head,c) → BuiltFrom s d c) : BuiltFrom s id (.mapping cs)

namespace Store

/-- The declared content of a node is read off what nodes were built as. -/
theorem contentTo_succ (depth id : Nat) : s.contentTo (depth + 1) id =
    match (s.node id).body.built with
    | .scalar raw _ => .scalar raw
    | .sequence _ declared _ => .list (declared.map (s.contentTo depth))
    | .mapping entries _ =>
      .mapping (entries.filterMap fun e =>
        match (s.node e).body.built with
        | .entry head _ declared .. => some (head,s.contentTo depth declared)
        | _ => none)
    | .entry _ _ declared .. => s.contentTo depth declared := by
  have entry (e : Nat) : (match (s.node e).body with
      | .entry head _ declared .. => some (head,s.contentTo depth declared)
      | _ => none) = match (s.node e).body.built with
      | .entry head _ declared .. => some (head,s.contentTo depth declared)
      | _ => none := by cases (s.node e).body <;> rfl
  rw [contentTo]
  cases (s.node id).body with
  | mapping entries isSettled => exact congrArg Content.mapping (List.filterMap_congr fun e _ => entry e)
  | _ => rfl

namespace BuiltFrom

variable {id : Nat} {c : Content}

theorem old (built : s.BuiltFrom id c) : id < s.nodes.size := by
  cases built <;> assumption

theorem faithful (built : s.BuiltFrom id c) (faithful : s.Faithful t) : t.BuiltFrom id c := by
  have grows := faithful.grows
  induction built with
  | scalar old body => exact .scalar (by omega) ((faithful.built _ old).trans body)
  | list old body sizes before _ ih => exact .list (by omega) ((faithful.built _ old).trans body) sizes before ih
  | mapping old body sizes sizes' before heads _ ih =>
    refine .mapping (by omega) ((faithful.built _ old).trans body) sizes sizes' before (fun i e d head c entry value part => ?_) ih
    obtain ⟨inside,here⟩ := heads i e d head c entry value part
    exact ⟨by omega,(faithful.built e inside).trans here⟩

theorem contentTo (built : s.BuiltFrom id c) (depth : Nat) (deep : id < depth) : s.contentTo depth id = c := by
  induction built generalizing depth with
  | scalar old body =>
    obtain ⟨depth,rfl⟩ : ∃ n, depth = n + 1 := ⟨depth - 1,by omega⟩
    rw [contentTo_succ,body]
  | @list id items cs old body sizes before _ ih =>
    obtain ⟨depth,rfl⟩ : ∃ n, depth = n + 1 := ⟨depth - 1,by omega⟩
    rw [contentTo_succ,body]
    refine congrArg Content.list (List.ext_getElem (by simpa using sizes) fun i inside inside' => ?_)
    have item : i < items.length := by simpa using inside
    have := before _ (List.getElem_mem item)
    rw [List.getElem_map]
    exact ih i _ _ (List.getElem?_eq_getElem item) (List.getElem?_eq_getElem inside') depth (by omega)
  | @mapping id entries values cs old body sizes sizes' before heads _ ih =>
    obtain ⟨depth,rfl⟩ : ∃ n, depth = n + 1 := ⟨depth - 1,by omega⟩
    rw [contentTo_succ,body]
    have each (i : Nat) (inside : i < entries.length) : (match (s.node entries[i]).body.built with
        | .entry head _ declared .. => some (head,s.contentTo depth declared)
        | _ => none) = some cs[i] := by
      have value : i < values.length := by omega
      have here := before _ (List.getElem_mem value)
      have part : cs[i]? = some (cs[i].1,cs[i].2) := List.getElem?_eq_getElem (by omega)
      rw [(heads i _ values[i] _ _ (List.getElem?_eq_getElem inside) (List.getElem?_eq_getElem value) part).2]
      simp only [Option.some.injEq]
      rw [ih i _ _ _ (List.getElem?_eq_getElem value) part depth (by omega)]
    have all : entries.map (fun e => match (s.node e).body.built with
        | .entry head _ declared .. => some (head,s.contentTo depth declared)
        | _ => none) = cs.map some := by
      refine List.ext_getElem (by simpa using sizes) fun i inside _ => ?_
      rw [List.getElem_map,List.getElem_map]
      exact each i (by simpa using inside)
    have found := congrArg (List.filterMap fun c => c) all
    rw [List.filterMap_map,List.filterMap_map] at found
    exact congrArg Content.mapping (found.trans List.filterMap_some)

/-- The content that a copy is built from is that which the node was built from. -/
theorem content (built : s.BuiltFrom id c) : s.content id = c :=
  built.contentTo _ (Nat.lt_succ_of_lt built.old)

end BuiltFrom
end Store

/-! ## Planting -/

/-- A new parent leaves the nodes there were what they were built as, and is itself what it is built as. -/
theorem newParent_built (body : Body) {children : List Nat} (old : ∀ id ∈ children, id < s.nodes.size) :
    ∃ t, Runs (newParent body children) s (.ok s.nodes.size) t ∧ s.Faithful t ∧ t.nodes.size = s.nodes.size + 1 ∧
      (t.node s.nodes.size).body = body := by
  have run := newParent_run s body children
  refine ⟨_,run,(Faithful.edited.newParent (Faithful.newNode _) children s _ _ trivial run).2,by simp,?_⟩
  rw [Store.node_adopted_of_not_mem fun member => Nat.lt_irrefl _ (old _ member),Store.node_push_new]
  rfl

mutual

/-- The tree planted from some content was declared with it. -/
theorem plant_built (c : Content) (s : Store) : ∃ (id : Nat) (t : Store), Runs (plant c) s (.ok id) t ∧ t.BuiltFrom id c ∧ s.Faithful t := by
  cases c with
  | scalar raw =>
    exact ⟨s.nodes.size,_,newNode_run,.scalar (by simp) (by rw [Store.node_push_new]; rfl),.push _⟩
  | list cs =>
    obtain ⟨ids,t,run,sizes,built,faithful⟩ := plantAll_built cs s
    have old (id : Nat) (member : id ∈ ids) : id < t.nodes.size := by
      obtain ⟨i,inside,rfl⟩ := List.getElem_of_mem member
      exact (built i _ _ (List.getElem?_eq_getElem inside) (List.getElem?_eq_getElem (by omega))).old
    obtain ⟨u,parent,further,size,body⟩ := newParent_built (.sequence ids ids false) old
    refine ⟨_,u,run.bind parent,.list (by omega) (by rw [body]; rfl) sizes old fun i d c item part => ?_,faithful.trans further⟩
    exact (built i d c item part).faithful further
  | mapping cs =>
    obtain ⟨ids,values,t,run,sizes,sizes',heads,built,faithful⟩ := plantEntries_built cs s
    have old (id : Nat) (member : id ∈ values) : id < t.nodes.size := by
      obtain ⟨i,inside,rfl⟩ := List.getElem_of_mem member
      exact (built i _ _ _ (List.getElem?_eq_getElem inside) (List.getElem?_eq_getElem (by omega : i < cs.length))).old
    have entries_old (id : Nat) (member : id ∈ ids) : id < t.nodes.size := by
      obtain ⟨i,inside,rfl⟩ := List.getElem_of_mem member
      exact (heads i _ values[i] _ _ (List.getElem?_eq_getElem inside) (List.getElem?_eq_getElem (by omega))
        (List.getElem?_eq_getElem (by omega : i < cs.length))).1
    obtain ⟨u,parent,further,size,body⟩ := newParent_built (.mapping ids false) entries_old
    refine ⟨_,u,run.bind parent,.mapping (by omega) (by rw [body]; rfl) sizes sizes' old (fun i e d head c entry value part => ?_)
      fun i d head c value part => (built i d head c value part).faithful further,faithful.trans further⟩
    obtain ⟨inside,here⟩ := heads i e d head c entry value part
    exact ⟨by omega,(further.built e inside).trans here⟩

theorem plantAll_built (cs : List Content) (s : Store) : ∃ (ids : List Nat) (t : Store), Runs (plantAll cs) s (.ok ids) t ∧
    ids.length = cs.length ∧ (∀ (i d : Nat) c, ids[i]? = some d → cs[i]? = some c → t.BuiltFrom d c) ∧ s.Faithful t := by
  cases cs with
  | nil => exact ⟨[],s,Runs.ok _ _,rfl,by simp,.of_nodes rfl⟩
  | cons c rest =>
    obtain ⟨id,t,run,built,faithful⟩ := plant_built c s
    obtain ⟨ids,u,runs,sizes,each,further⟩ := plantAll_built rest t
    refine ⟨id :: ids,u,run.bind (runs.bind (Runs.ok _ _)),by simp [sizes],fun i d c' item part => ?_,faithful.trans further⟩
    cases i with
    | zero =>
      obtain ⟨rfl,rfl⟩ : id = d ∧ c = c' := ⟨by simpa using item,by simpa using part⟩
      exact built.faithful further
    | succ i => exact each i d c' (by simpa using item) (by simpa using part)

theorem plantEntries_built (cs : List (EntryHead × Content)) (s : Store) : ∃ (ids values : List Nat) (t : Store),
    Runs (plantEntries cs) s (.ok ids) t ∧ ids.length = cs.length ∧ values.length = cs.length ∧
    (∀ (i e d : Nat) head c, ids[i]? = some e → values[i]? = some d → cs[i]? = some (head,c) →
      e < t.nodes.size ∧ (t.node e).body.built = .entry head d d none .pending none) ∧
    (∀ (i d : Nat) head c, values[i]? = some d → cs[i]? = some (head,c) → t.BuiltFrom d c) ∧ s.Faithful t := by
  cases cs with
  | nil => exact ⟨[],[],s,Runs.ok _ _,rfl,rfl,by simp,by simp,.of_nodes rfl⟩
  | cons p rest =>
    obtain ⟨head,c⟩ := p
    obtain ⟨value,t,run,built,faithful⟩ := plant_built c s
    obtain ⟨u,entry,further,size,body⟩ := newParent_built (.entry head value value none .pending none)
      fun id (member : id ∈ [value]) => by
        obtain rfl : id = value := by simpa using member
        exact built.old
    obtain ⟨ids,values,w,runs,sizes,sizes',heads,each,last⟩ := plantEntries_built rest u
    refine ⟨t.nodes.size :: ids,value :: values,w,run.bind (entry.bind (runs.bind (Runs.ok _ _))),by simp [sizes],by simp [sizes'],
      fun i e d head' c' entry value part => ?_,fun i d head' c' value part => ?_,(faithful.trans further).trans last⟩
    · cases i with
      | zero =>
        simp only [List.getElem?_cons_zero,Option.some.injEq,Prod.mk.injEq] at entry value part
        obtain ⟨rfl,rfl⟩ := part
        subst entry value
        have := last.grows
        exact ⟨by omega,(last.built _ (by omega)).trans (by rw [body]; rfl)⟩
      | succ i => exact heads i e d head' c' (by simpa using entry) (by simpa using value) (by simpa using part)
    · cases i with
      | zero =>
        simp only [List.getElem?_cons_zero,Option.some.injEq,Prod.mk.injEq] at value part
        obtain ⟨rfl,rfl⟩ := part
        subst value
        exact (built.faithful further).faithful last
      | succ i => exact each i d head' c' (by simpa using value) (by simpa using part)

end

/-- What is planted from some content is declared with it from then on. -/
theorem builtFrom_of_plant {c : Content} {id : Nat} (run : Runs (plant c) s (.ok id) t) : t.BuiltFrom id c := by
  obtain ⟨_,_,run',built,_⟩ := plant_built c s
  obtain ⟨same,rfl⟩ := Runs.unique run' run
  cases same
  exact built

end ConfTree
