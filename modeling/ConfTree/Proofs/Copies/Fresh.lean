import ConfTree.Proofs.Copies.Declared
import ConfTree.Proofs.Planting
import ConfTree.Proofs.WellFormed

/-!
Trees as they are just after they were built: a stretch of new nodes, the root last, each node with the body it was
built with, its parent and nothing else (`Store.Fresh`). Whatever is planted is such a tree (`plant_fresh`), and two such
trees of one origin have one shape (`Fresh.isomorphic`). No work on a tree changes what its copies are planted from
(`Fresh.contentTo`), so a copy is a new tree of the shape that the node had at first (`Fresh.copied`).
-/
namespace ConfTree

open StoreM

variable {s t u : Store}

/-- A node just built, in its place. -/
def Node.under (above : Option NodeId) (body : Body) : Node := { Node.fresh body with parent := above }

/-- What a node is built from: an entry from its head and the content of its value, any other node from content. -/
inductive Seed where
  | value (c : Content)
  | entry (head : EntryHead) (c : Content)

namespace Seed

/-- The body that a node is built with over the nodes below it. -/
def body : Seed → List NodeId → Body
  | .value (.scalar raw), _ => .scalar raw none
  | .value (.list _), ids => .sequence ids ids false
  | .value (.mapping _), ids => .mapping ids false
  | .entry head _, ids => .entry head (ids.headD 0) (ids.headD 0) none .pending none

/-- What the nodes below a node are built from. -/
def parts : Seed → List Seed
  | .value (.scalar _) => []
  | .value (.list cs) => cs.map .value
  | .value (.mapping cs) => cs.map fun p => .entry p.1 p.2
  | .entry _ c => [.value c]

theorem body_idle (seed : Seed) (ids : List NodeId) : ¬ (Node.fresh (seed.body ids)).Over := by
  rcases seed with (_ | _ | _) | _ <;> exact nofun

theorem below_body {seed : Seed} {ids : List NodeId} (sizes : ids.length = seed.parts.length) : (seed.body ids).below = ids := by
  match seed with
  | .value (.list _) | .value (.mapping _) => rfl
  | .value (.scalar _) => exact (List.eq_nil_of_length_eq_zero sizes).symm
  | .entry .. =>
    obtain ⟨d,rfl⟩ := List.length_eq_one_iff.mp sizes
    rfl

end Seed

mutual

/-- A tree as it was built: its nodes are those from `first` to its root. -/
inductive Store.Fresh (s : Store) : Nat → Option Nat → Nat → Seed → Prop
  | built {first id : Nat} {above : Option Nat} {seed : Seed} {ids : List Nat} (old : id < s.nodes.size)
      (node : s.node id = .under above (seed.body ids)) (parts : FreshAll s first id (some id) ids seed.parts) : Fresh s first above id seed

/-- Trees as they were built one after another, below one node: their nodes are those from `first` up to `last`. -/
inductive Store.FreshAll (s : Store) : Nat → Nat → Option Nat → List Nat → List Seed → Prop
  | nil {first last : Nat} {above : Option Nat} (least : first ≤ last) : FreshAll s first last above [] []
  | cons {first last id : Nat} {above : Option Nat} {ids : List Nat} {seed : Seed} {seeds : List Seed} (here : Fresh s first above id seed)
      (rest : FreshAll s (id + 1) last above ids seeds) : FreshAll s first last above (id :: ids) (seed :: seeds)

end

namespace Store

mutual

theorem Fresh.bounds {first id : Nat} {above : Option Nat} {seed : Seed} : s.Fresh first above id seed → first ≤ id ∧ id < s.nodes.size
  | .built old _ parts => ⟨parts.least,old⟩

theorem FreshAll.least {first last : Nat} {above : Option Nat} {ids : List Nat} {seeds : List Seed} :
    s.FreshAll first last above ids seeds → first ≤ last
  | .nil least => least
  | .cons here rest => Nat.le_trans here.bounds.1 (Nat.le_of_succ_le rest.least)

end

theorem FreshAll.bounds {first last : Nat} {above : Option Nat} {ids : List Nat} {seeds : List Seed}
    (all : s.FreshAll first last above ids seeds) : ∀ id ∈ ids, first ≤ id ∧ id < last := by
  match all with
  | .nil _ => simp
  | .cons here rest =>
    have := here.bounds
    have := rest.least
    refine List.forall_mem_cons.mpr ⟨by omega,fun id member => ?_⟩
    have := rest.bounds id member
    omega

theorem FreshAll.sizes {first last : Nat} {above : Option Nat} {ids : List Nat} {seeds : List Seed} :
    s.FreshAll first last above ids seeds → ids.length = seeds.length
  | .nil _ => rfl
  | .cons _ rest => congrArg Nat.succ rest.sizes

mutual

/-- A tree stands as it was built as long as its nodes stay the same. -/
theorem Fresh.frame {first id : Nat} {above : Option Nat} {seed : Seed} (grows : s.nodes.size ≤ t.nodes.size)
    (same : ∀ j : Nat, first ≤ j → j ≤ id → t.node j = s.node j) : s.Fresh first above id seed → t.Fresh first above id seed
  | .built old node parts => .built (by omega) ((same _ parts.least (Nat.le_refl _)).trans node)
      (parts.frame grows fun j lower upper => same j lower (Nat.le_of_lt upper))

theorem FreshAll.frame {first last : Nat} {above : Option Nat} {ids : List Nat} {seeds : List Seed} (grows : s.nodes.size ≤ t.nodes.size)
    (same : ∀ j : Nat, first ≤ j → j < last → t.node j = s.node j) :
    s.FreshAll first last above ids seeds → t.FreshAll first last above ids seeds
  | .nil least => .nil least
  | .cons here rest => by
    have := here.bounds.1
    have := rest.least
    exact .cons (here.frame grows fun j lower upper => same j lower (by omega)) (rest.frame grows fun j lower upper => same j (by omega) upper)

end

variable {first last id : Nat} {above place : Option Nat} {seed : Seed}

/-- A tree stands as it was built when only its root gets a place. -/
theorem Fresh.reroot (grows : s.nodes.size ≤ t.nodes.size) (same : ∀ j : Nat, first ≤ j → j < id → t.node j = s.node j)
    (root : t.node id = { s.node id with parent := place }) : s.Fresh first above id seed → t.Fresh first place id seed
  | .built old node parts => .built (by omega) (by rw [root,node]; rfl) (parts.frame grows same)

/-- Trees stand as they were built when only their roots get a place. -/
theorem FreshAll.reroot {first last : Nat} {ids : List Nat} {seeds : List Seed} (grows : s.nodes.size ≤ t.nodes.size)
    (same : ∀ j : Nat, first ≤ j → j < last → j ∉ ids → t.node j = s.node j)
    (roots : ∀ id ∈ ids, t.node id = { s.node id with parent := place }) :
    s.FreshAll first last above ids seeds → t.FreshAll first last place ids seeds
  | .nil least => .nil least
  | .cons here rest => by
    obtain ⟨lower,_⟩ := here.bounds
    have upper := rest.least
    obtain ⟨root,roots⟩ := List.forall_mem_cons.mp roots
    refine .cons (here.reroot grows (fun j least below => same j least (by omega) ?_) root)
      (rest.reroot grows (fun j least below stranger => same j (by omega) below ?_) roots)
    · refine List.not_mem_cons_of_ne_of_not_mem (by omega) fun member => ?_
      have := rest.bounds j member
      omega
    · exact List.not_mem_cons_of_ne_of_not_mem (by omega) stranger

theorem Fresh.grown (fresh : s.Fresh first above id seed) (grown : Grown s t) : t.Fresh first above id seed :=
  fresh.frame grown.grows fun _ _ upper => grown.node (Nat.lt_of_le_of_lt upper fresh.bounds.2)

end Store

/-! ## Planting -/

/-- Trees that stand at the end of the store, with a parent after them, are the parts of a tree as it is built. -/
theorem newParent_fresh (seed : Seed) (ids : List Nat) (grown : Grown s t) (all : t.FreshAll s.nodes.size t.nodes.size none ids seed.parts) :
    ∃ u, Runs (newParent (seed.body ids) ids) t (.ok t.nodes.size) u ∧ Grown s u ∧ u.nodes.size = t.nodes.size + 1 ∧
      u.Fresh s.nodes.size none t.nodes.size seed := by
  have inside := all.bounds
  have stranger : t.nodes.size ∉ ids := fun member => Nat.lt_irrefl _ (inside _ member).2
  have placed : ((t.push (.fresh (seed.body ids))).adopted t.nodes.size ids).FreshAll s.nodes.size t.nodes.size (some t.nodes.size) ids seed.parts := by
    refine all.reroot (by simp) (fun j _ upper stranger => ?_) fun id member => ?_
    · rw [Store.node_adopted_of_not_mem stranger,Store.node_push_old upper]
    · have old := (inside id member).2
      rw [Store.node_adopted_of_mem member (by simp; omega),Store.node_push_old old]
  refine ⟨_,newParent_run _ _ _,(grown.trans (.push (seed.body_idle ids))).adopted fun id member => (inside id member).1,by simp,
    .built (by simp) ?_ placed⟩
  rw [Store.node_adopted_of_not_mem stranger,Store.node_push_new]
  rfl

/-- An entry is built around the tree at the end of the store. -/
theorem newEntry_fresh {value : Nat} {c : Content} (head : EntryHead) (grown : Grown s t) (size : t.nodes.size = value + 1)
    (fresh : t.Fresh s.nodes.size none value (.value c)) : ∃ u, Runs (newEntry head value) t (.ok t.nodes.size) u ∧ Grown s u ∧
      u.nodes.size = t.nodes.size + 1 ∧ u.Fresh s.nodes.size none t.nodes.size (.entry head c) :=
  newParent_fresh (.entry head c) [value] grown (.cons fresh (.nil (by omega)))

mutual

/-- What is planted stands as it was built, a tree of its own at the end of the store. -/
theorem plant_fresh (c : Content) (s : Store) : ∃ (id : Nat) (t : Store), Runs (plant c) s (.ok id) t ∧ Grown s t ∧
    t.nodes.size = id + 1 ∧ t.Fresh s.nodes.size none id (.value c) := by
  cases c with
  | scalar raw =>
    exact ⟨_,_,newNode_run,.push (fresh_scalar_idle _),by simp,.built (by simp) (by rw [Store.node_push_new]; rfl)
      (.nil (Nat.le_refl _))⟩
  | list cs =>
    obtain ⟨ids,t,run,grown,all⟩ := plantAll_fresh cs s
    obtain ⟨u,parent,grown,size,fresh⟩ := newParent_fresh (.value (.list cs)) ids grown all
    exact ⟨_,u,run.bind parent,grown,size,fresh⟩
  | mapping cs =>
    obtain ⟨ids,t,run,grown,all⟩ := plantEntries_fresh cs s
    obtain ⟨u,parent,grown,size,fresh⟩ := newParent_fresh (.value (.mapping cs)) ids grown all
    exact ⟨_,u,run.bind parent,grown,size,fresh⟩

theorem plantAll_fresh (cs : List Content) (s : Store) : ∃ (ids : List Nat) (t : Store), Runs (plantAll cs) s (.ok ids) t ∧ Grown s t ∧
    t.FreshAll s.nodes.size t.nodes.size none ids (cs.map .value) := by
  cases cs with
  | nil => exact ⟨[],s,Runs.ok _ _,.refl s,.nil (Nat.le_refl _)⟩
  | cons c rest =>
    obtain ⟨id,t,run,grown,size,fresh⟩ := plant_fresh c s
    obtain ⟨ids,u,runs,further,all⟩ := plantAll_fresh rest t
    exact ⟨id :: ids,u,run.bind (runs.bind (Runs.ok _ _)),grown.trans further,.cons (fresh.grown further) (size ▸ all)⟩

theorem plantEntries_fresh (cs : List (EntryHead × Content)) (s : Store) : ∃ (ids : List Nat) (t : Store),
    Runs (plantEntries cs) s (.ok ids) t ∧ Grown s t ∧
      t.FreshAll s.nodes.size t.nodes.size none ids (cs.map fun p => .entry p.1 p.2) := by
  cases cs with
  | nil => exact ⟨[],s,Runs.ok _ _,.refl s,.nil (Nat.le_refl _)⟩
  | cons p rest =>
    obtain ⟨head,c⟩ := p
    obtain ⟨value,t,run,grown,size,fresh⟩ := plant_fresh c s
    obtain ⟨u,entry,grown,size,fresh⟩ := newEntry_fresh head grown size fresh
    obtain ⟨ids,w,runs,further,all⟩ := plantEntries_fresh rest u
    exact ⟨_,w,run.bind (entry.bind (runs.bind (Runs.ok _ _))),grown.trans further,.cons (fresh.grown further) (size ▸ all)⟩

end

namespace Store

/-! ## Declared content -/

mutual

/-- Whatever became of a tree, its declared content is that which it was built from. -/
theorem Fresh.contentTo {first id : Nat} {above : Option Nat} {c : Content} (faithful : s.Faithful t) (fresh : s.Fresh first above id (.value c))
    (depth : Nat) (deep : id < depth) : t.contentTo depth id = c := by
  obtain ⟨depth,rfl⟩ : ∃ n, depth = n + 1 := ⟨depth - 1,by omega⟩
  obtain ⟨old,node,parts⟩ := fresh
  rw [contentTo_succ,faithful.built id old,node]
  cases c with
  | scalar raw => rfl
  | list cs => exact congrArg Content.list (parts.contentsTo faithful depth (by omega))
  | mapping cs => exact congrArg Content.mapping (parts.entriesTo faithful depth (by omega))

theorem FreshAll.contentsTo {first last : Nat} {above : Option Nat} {ids : List Nat} {cs : List Content} (faithful : s.Faithful t)
    (all : s.FreshAll first last above ids (cs.map .value)) (depth : Nat) (deep : last ≤ depth) : ids.map (t.contentTo depth) = cs := by
  cases cs with
  | nil => cases all; rfl
  | cons c cs =>
    obtain _ | ⟨here,rest⟩ := all
    have := rest.least
    rw [List.map_cons,here.contentTo faithful depth (by omega),rest.contentsTo faithful depth deep]

theorem FreshAll.entriesTo {first last : Nat} {above : Option Nat} {ids : List Nat} {cs : List (EntryHead × Content)}
    (faithful : s.Faithful t) (all : s.FreshAll first last above ids (cs.map fun p => .entry p.1 p.2)) (depth : Nat) (deep : last ≤ depth) :
    (ids.filterMap fun e => match (t.node e).body.built with
      | .entry head _ declared .. => some (head,t.contentTo depth declared)
      | _ => none) = cs := by
  cases cs with
  | nil => cases all; rfl
  | cons p cs =>
    obtain ⟨head,c⟩ := p
    obtain _ | ⟨⟨old,node,_ | ⟨value,last⟩⟩,rest⟩ := all
    have := rest.least
    have := last.least
    have built := faithful.built _ old
    rw [node] at built
    refine (List.filterMap_cons_some ?_).trans (congrArg _ (rest.entriesTo faithful depth deep))
    rw [built]
    exact congrArg (fun c => some (head,c)) (value.contentTo faithful depth (by omega))

end

/-! ## Shape and copies -/

/-- Two trees of one shape, with nothing done to them: kinds, keys and what these declare, raw values and order are the same. -/
inductive Isomorphic (s t : Store) : Nat → Nat → Prop
  | scalar {x y : Nat} {raw : Literal} (left : (s.node x).body = .scalar raw none) (right : (t.node y).body = .scalar raw none) :
      Isomorphic s t x y
  | sequence {x y : Nat} {xs ys : List Nat} (left : (s.node x).body = .sequence xs xs false) (right : (t.node y).body = .sequence ys ys false)
      (items : List.Forall₂ (Isomorphic s t) xs ys) : Isomorphic s t x y
  | mapping {x y : Nat} {xs ys : List Nat} (left : (s.node x).body = .mapping xs false) (right : (t.node y).body = .mapping ys false)
      (entries : List.Forall₂ (Isomorphic s t) xs ys) : Isomorphic s t x y
  | entry {x y d e : Nat} {head : EntryHead} (left : (s.node x).body = .entry head d d none .pending none)
      (right : (t.node y).body = .entry head e e none .pending none) (value : Isomorphic s t d e) : Isomorphic s t x y

/-- Nodes that were built from the same have one shape as soon as the nodes below them have. -/
theorem Isomorphic.of_parts {x y : Nat} {above above' : Option Nat} {seed : Seed} {xs ys : List Nat} (sizes : xs.length = seed.parts.length)
    (left : s.node x = .under above (seed.body xs)) (right : t.node y = .under above' (seed.body ys))
    (parts : List.Forall₂ (s.Isomorphic t) xs ys) : s.Isomorphic t x y := by
  have left := congrArg Node.body left
  have right := congrArg Node.body right
  match seed with
  | .value (.scalar _) => exact .scalar left right
  | .value (.list _) => exact .sequence left right parts
  | .value (.mapping _) => exact .mapping left right parts
  | .entry .. =>
    obtain ⟨d,rfl⟩ := List.length_eq_one_iff.mp sizes
    obtain _ | ⟨value,_⟩ := parts
    exact .entry left right value

mutual

/-- Trees that were built from the same have one shape. -/
theorem Fresh.isomorphic {first first' x y : Nat} {above above' : Option Nat} {seed : Seed} (left : s.Fresh first above x seed)
    (right : t.Fresh first' above' y seed) : s.Isomorphic t x y := by
  match left with
  | .built _ node parts =>
    obtain ⟨_,node',parts'⟩ := right
    exact .of_parts parts.sizes node node' (parts.isomorphic parts')

theorem FreshAll.isomorphic {first first' last last' : Nat} {above above' : Option Nat} {xs ys : List Nat} {seeds : List Seed}
    (left : s.FreshAll first last above xs seeds) (right : t.FreshAll first' last' above' ys seeds) :
    List.Forall₂ (s.Isomorphic t) xs ys := by
  match left with
  | .nil _ =>
    cases right
    exact .nil
  | .cons here rest =>
    obtain _ | ⟨here',rest'⟩ := right
    exact .cons (here.isomorphic here') (rest.isomorphic rest')

end

/-- The node at some place below another one: of its children that of the first index, of the children of that one that of the
next, and so on. -/
def at? (s : Store) : List Nat → Nat → Option Nat
  | [], id => some id
  | i :: place, id => (s.below id)[i]?.bind (s.at? place)

theorem Fresh.parts {first id : Nat} {above : Option Nat} {seed : Seed} (fresh : s.Fresh first above id seed) :
    s.FreshAll first id (some id) (s.below id) seed.parts := by
  obtain ⟨_,node,parts⟩ := fresh
  rw [Store.below,node,Node.under,Node.fresh,Seed.below_body parts.sizes]
  exact parts

theorem FreshAll.part {first last i n : Nat} {above : Option Nat} {ids : List Nat} {seeds : List Seed}
    (all : s.FreshAll first last above ids seeds) (place : ids[i]? = some n) :
    ∃ first' seed, seeds[i]? = some seed ∧ first ≤ first' ∧ s.Fresh first' above n seed := by
  match all, i with
  | .cons here _, 0 =>
    obtain rfl := Option.some.inj place
    exact ⟨_,_,rfl,Nat.le_refl _,here⟩
  | .cons here rest, i + 1 =>
    obtain ⟨first',seed,found,least,fresh⟩ := rest.part place
    have := here.bounds.1
    exact ⟨first',seed,found,by omega,fresh⟩

theorem FreshAll.part_of_seed {first last i : Nat} {above : Option Nat} {ids : List Nat} {seeds : List Seed} {seed : Seed}
    (all : s.FreshAll first last above ids seeds) (place : seeds[i]? = some seed) :
    ∃ n first', ids[i]? = some n ∧ s.Fresh first' above n seed := by
  match all, i with
  | .cons here _, 0 =>
    obtain rfl := Option.some.inj place
    exact ⟨_,_,rfl,here⟩
  | .cons _ rest, i + 1 => exact rest.part_of_seed place

variable {first first' id x y n : Nat} {above above' : Option Nat} {seed : Seed}

/-- The nodes of a tree are trees as they were built, with nodes of the same stretch. -/
theorem Fresh.within {place : List Nat} (fresh : s.Fresh first above id seed) (found : s.at? place id = some n) :
    ∃ first' above' seed', first ≤ first' ∧ s.Fresh first' above' n seed' := by
  induction place generalizing first above id seed with
  | nil =>
    obtain rfl := Option.some.inj found
    exact ⟨_,_,_,Nat.le_refl _,fresh⟩
  | cons i place ih =>
    obtain ⟨d,here,found⟩ := Option.bind_eq_some_iff.mp found
    obtain ⟨_,_,_,least,part⟩ := fresh.parts.part here
    obtain ⟨first',above',seed',further,fresh⟩ := ih part found
    exact ⟨first',above',seed',by omega,fresh⟩

/-- Trees that were built from the same have nodes in the same places, and these were built from the same. -/
theorem Fresh.counterpart {place : List Nat} (left : s.Fresh first above x seed) (right : t.Fresh first' above' y seed)
    (found : s.at? place x = some n) : ∃ n' seed' low low' up up', t.at? place y = some n' ∧ s.Fresh low up n seed' ∧
      t.Fresh low' up' n' seed' := by
  induction place generalizing first first' above above' x y seed with
  | nil =>
    obtain rfl := Option.some.inj found
    exact ⟨y,seed,first,first',above,above',rfl,left,right⟩
  | cons i place ih =>
    obtain ⟨d,here,found⟩ := Option.bind_eq_some_iff.mp found
    obtain ⟨_,_,part,_,inside⟩ := left.parts.part here
    obtain ⟨e,_,there,outside⟩ := right.parts.part_of_seed part
    obtain ⟨n',rest⟩ := ih inside outside found
    refine ⟨n',?_⟩
    rw [at?,there]
    exact rest

/-- A copy of a node that is no entry is planted from its content. -/
theorem copy_eq (unlike : s.kind n ≠ .entry) {m : Nat} (run : Runs (plant (s.content n)) s (.ok m) t) : Runs (copy n) s (.ok m) t := by
  refine Runs.bind get_run (run.bind ?_)
  cases body : (s.node n).body with
  | entry => exact absurd (by rw [Store.kind,Node.kind,body]; rfl) unlike
  | _ => exact Runs.ok _ _

/-- Whatever became of a tree, a copy of it is a new tree as that was built. -/
theorem Fresh.copied (fresh : s.Fresh first above n seed) (faithful : s.Faithful t) :
    ∃ m u, Runs (copy n) t (.ok m) u ∧ Grown t u ∧ u.Fresh t.nodes.size none m seed := by
  have grows := faithful.grows
  obtain ⟨old,node,parts⟩ := id fresh
  have built := faithful.built n old
  rw [node] at built
  match seed with
  | .value c =>
    have content : t.content n = c := fresh.contentTo faithful _ (by omega)
    obtain ⟨m,u,run,grown,_,planted⟩ := plant_fresh c t
    refine ⟨m,u,copy_eq (fun entry => ?_) (content ▸ run),grown,planted⟩
    have kind := congrArg Body.kind built
    rw [Body.kind_built,Body.kind_built] at kind
    cases c <;> cases kind.symm.trans entry
  | .entry head c =>
    obtain _ | ⟨value,last⟩ := parts
    have before := last.least
    cases body : (t.node n).body with
    | entry head' slot declared =>
      rw [body] at built
      cases built
      have content : t.content n = c := by
        rw [Store.content,contentTo_succ,body]
        exact value.contentTo faithful _ (by omega)
      obtain ⟨m,u,run,grown,size,planted⟩ := plant_fresh c t
      obtain ⟨w,entered,grown,_,fresh⟩ := newEntry_fresh head grown size planted
      refine ⟨_,w,Runs.bind get_run ((content.symm ▸ run).bind ?_),grown,fresh⟩
      rw [body]
      exact entered
    | _ =>
      rw [body] at built
      cases built

end Store
end ConfTree
