import Mathlib.Data.List.Forall2
import Mathlib.Data.List.TakeWhile
import ConfTree.Proofs.Edits
import ConfTree.Proofs.Location
import ConfTree.Proofs.Overrides.Edit

/-!
Trees of plain content. Building one adds a stretch of nodes to the store, the root last
(`Planted`, `plant_run`), and nothing else changes; the tree stands as it was built until one of the nodes
of its stretch is worked on.
-/
namespace ConfTree

/-- A node that was not replaced, of which nothing was asked, and whose value was not asked for. -/
structure Node.Blank (n : Node) : Prop where
  live : n.replacedBy = none
  shown : n.isHidden = false
  optional : n.isRequired = false
  untyped : n.types = none
  untransformed : n.transforms = []
  pending : n.resolution = .pending

/-- A node whose work is over: its value is known, or its entry modified. -/
def Node.Over (n : Node) : Prop :=
  match n.body with
  | .entry _ _ _ _ modification _ => modification = .done ()
  | _ => ∃ v, n.resolution = .done v

/-- That a node lies in a stretch of nodes. -/
def Stretch (first last id : Nat) : Prop := first ≤ id ∧ id ≤ last

/-- A stretch of nodes, from the first one to the root of a tree, and the value that the tree is of. -/
structure Plot where
  first : Nat
  root : Nat
  value : Value

/-- A tree in the value slot of an entry. -/
structure Branch where
  key : Text
  entry : Nat
  plot : Plot

namespace Plot

/-- The nodes of the stretch. -/
def Holds (p : Plot) : Nat → Prop := Stretch p.first p.root

end Plot

/-- The head of an entry whose key declares nothing and that inherits nothing. -/
def EntryHead.bare (key : Text) : EntryHead := ⟨⟨key,.none⟩,none⟩

/-- A tree as it was built from plain content; at most its root, when a scalar, was overridden. -/
inductive Planted (s : Store) : Plot → Prop
  | scalar {id : Nat} {v : Value} {raw : Literal} {override : Option Literal} (old : id < s.nodes.size)
      (blank : (s.node id).Blank) (body : (s.node id).body = .scalar raw override)
      (content : v.literal? = some (override.getD raw)) : Planted s ⟨id,id,v⟩
  | list {first root : Nat} {a : Identity} {parts : List Plot} (old : root < s.nodes.size) (blank : (s.node root).Blank)
      (body : (s.node root).body = .sequence (parts.map Plot.root) (parts.map Plot.root) false) (least : first ≤ root)
      (within : ∀ p ∈ parts, first ≤ p.first ∧ p.root < root) (apart : parts.Pairwise fun p q => p.root < q.first)
      (parents : ∀ p ∈ parts, (s.node p.root).parent = some root) (planted : ∀ p ∈ parts, Planted s p) :
      Planted s ⟨first,root,.list a (parts.map Plot.value)⟩
  | mapping {first root : Nat} {a : Identity} {branches : List Branch} (old : root < s.nodes.size)
      (blank : (s.node root).Blank) (body : (s.node root).body = .mapping (branches.map Branch.entry) false)
      (least : first ≤ root)
      (within : ∀ b ∈ branches, first ≤ b.plot.first ∧ b.plot.root < b.entry ∧ b.entry < root)
      (apart : branches.Pairwise fun b c => b.entry < c.plot.first)
      (parents : ∀ b ∈ branches, (s.node b.plot.root).parent = some b.entry)
      (entries : ∀ b ∈ branches, (s.node b.entry).Blank ∧ (s.node b.entry).parent = some root ∧
        (s.node b.entry).body = .entry (.bare b.key) b.plot.root b.plot.root none .pending none)
      (planted : ∀ b ∈ branches, Planted s b.plot) :
      Planted s ⟨first,root,.mapping a (branches.map fun b => (b.key,b.plot.value))⟩

namespace Planted

variable {s t : Store} {p : Plot}

theorem least (planted : Planted s p) : p.first ≤ p.root := by
  cases planted with
  | scalar => exact Nat.le_refl _
  | list _ _ _ least => exact least
  | mapping _ _ _ least => exact least

theorem old (planted : Planted s p) : p.root < s.nodes.size := by
  cases planted <;> assumption

theorem blank (planted : Planted s p) : (s.node p.root).Blank := by
  cases planted <;> assumption

/-- A tree stands as it was built as long as its stretch of nodes stays the same. -/
theorem frame (planted : Planted s p) (grows : s.nodes.size ≤ t.nodes.size)
    (same : ∀ id, p.Holds id → t.node id = s.node id) : Planted t p := by
  induction planted with
  | scalar old blank body content =>
    have here := same _ ⟨Nat.le_refl _,Nat.le_refl _⟩
    exact .scalar (by omega) (here ▸ blank) (here ▸ body) content
  | @list first root a parts old blank body least within apart parents planted ih =>
    have here := same root ⟨least,Nat.le_refl _⟩
    have inside (p : Plot) (member : p ∈ parts) (id : Nat) (holds : p.Holds id) : t.node id = s.node id := by
      have bounds := within p member
      exact same id ⟨Nat.le_trans bounds.1 holds.1,Nat.le_of_lt (Nat.lt_of_le_of_lt holds.2 bounds.2)⟩
    refine .list (by omega) (here ▸ blank) (here ▸ body) least within apart (fun p member => ?_)
      fun p member => ih p member (inside p member)
    rw [inside p member p.root ⟨(planted p member).least,Nat.le_refl _⟩]
    exact parents p member
  | @mapping first root a branches old blank body least within apart parents entries planted ih =>
    have here := same root ⟨least,Nat.le_refl _⟩
    have inside (b : Branch) (member : b ∈ branches) (id : Nat) (holds : b.plot.Holds id) : t.node id = s.node id := by
      obtain ⟨lower,upper,last⟩ := within b member
      exact same id ⟨Nat.le_trans lower holds.1,Nat.le_trans holds.2 (Nat.le_of_lt (Nat.lt_trans upper last))⟩
    refine .mapping (by omega) (here ▸ blank) (here ▸ body) least within apart (fun b member => ?_)
      (fun b member => ?_) fun b member => ih b member (inside b member)
    · rw [inside b member b.plot.root ⟨(planted b member).least,Nat.le_refl _⟩]
      exact parents b member
    · obtain ⟨lower,upper,last⟩ := within b member
      have least := (planted b member).least
      rw [same b.entry ⟨by show first ≤ b.entry; omega,Nat.le_of_lt last⟩]
      exact entries b member

/-- A tree stands as it was built when only its root gets a place. -/
theorem reroot (planted : Planted s p) (grows : s.nodes.size ≤ t.nodes.size)
    (same : ∀ id, p.Holds id → id ≠ p.root → t.node id = s.node id) (blank : (t.node p.root).Blank)
    (body : (t.node p.root).body = (s.node p.root).body) : Planted t p := by
  cases planted with
  | scalar old _ here content => exact .scalar (by omega) blank (body.trans here) content
  | @list first root a parts old _ here least within apart parents planted =>
    have inside (p : Plot) (member : p ∈ parts) (id : Nat) (holds : p.Holds id) : t.node id = s.node id := by
      obtain ⟨lower,upper⟩ := within p member
      have below : id < root := Nat.lt_of_le_of_lt holds.2 upper
      exact same id ⟨Nat.le_trans lower holds.1,Nat.le_of_lt below⟩ (Nat.ne_of_lt below)
    refine .list (by omega) blank (body.trans here) least within apart (fun p member => ?_)
      fun p member => (planted p member).frame grows (inside p member)
    rw [inside p member p.root ⟨(planted p member).least,Nat.le_refl _⟩]
    exact parents p member
  | @mapping first root a branches old _ here least within apart parents entries planted =>
    have inside (b : Branch) (member : b ∈ branches) (id : Nat) (holds : b.plot.first ≤ id ∧ id ≤ b.entry) :
        t.node id = s.node id := by
      obtain ⟨lower,upper,last⟩ := within b member
      have below : id < root := Nat.lt_of_le_of_lt holds.2 last
      exact same id ⟨Nat.le_trans lower holds.1,Nat.le_of_lt below⟩ (Nat.ne_of_lt below)
    have ends (b : Branch) (member : b ∈ branches) : b.plot.first ≤ b.plot.root ∧ b.plot.root < b.entry :=
      ⟨(planted b member).least,(within b member).2.1⟩
    refine .mapping (by omega) blank (body.trans here) least within apart (fun b member => ?_) (fun b member => ?_)
      fun b member => (planted b member).frame grows fun id holds =>
        inside b member id ⟨holds.1,Nat.le_of_lt (Nat.lt_of_le_of_lt holds.2 (ends b member).2)⟩
    · rw [inside b member _ ⟨(ends b member).1,Nat.le_of_lt (ends b member).2⟩]
      exact parents b member
    · rw [inside b member _ ⟨Nat.le_of_lt (Nat.lt_of_le_of_lt (ends b member).1 (ends b member).2),Nat.le_refl _⟩]
      exact entries b member

end Planted

/-! ## Plain values as content -/

theorem CodeUnit.isBlank_of_startsName {u : CodeUnit} (starts : u.startsName = true) : u.isBlank = false := by
  simp only [CodeUnit.startsName,CodeUnit.isLetter,CodeUnit.isBlank,Bool.or_eq_true,Bool.and_eq_true,decide_eq_true_eq,
    beq_iff_eq,UInt16.le_iff_toNat_le,← UInt16.toNat_inj,Bool.or_eq_false_iff,Bool.and_eq_false_iff,decide_eq_false_iff_not,
    beq_eq_false_iff_ne,ne_eq,UInt16.reduceToNat] at *
  omega

namespace Key

/-- A bare key is read as the name that it is. -/
theorem parse_bare {key : Text} (bare : isBare key = true) : parse key = .ok ⟨key,.none⟩ := by
  obtain ⟨named,allowed⟩ := Bool.and_eq_true_iff.mp bare
  have differs : key ≠ reserved := by simpa using allowed
  obtain ⟨units⟩ := key
  cases units with
  | nil => simp [Address.isName] at named
  | cons u rest =>
    obtain ⟨starts,further⟩ : u.startsName = true ∧ rest.all CodeUnit.inName = true := by simpa [Address.isName] using named
    have solid : u.isBlank = false := CodeUnit.isBlank_of_startsName starts
    have all : (u :: rest).all CodeUnit.inName = true := by
      rw [List.all_cons,further,Bool.and_true,CodeUnit.inName,starts,Bool.true_or]
    have name : (u :: rest).takeWhile CodeUnit.inName = u :: rest :=
      List.takeWhile_eq_self_iff.mpr fun v member => List.all_eq_true.mp all v member
    have nothing : (u :: rest).dropWhile CodeUnit.inName = [] :=
      List.dropWhile_eq_nil_iff.mpr fun v member => List.all_eq_true.mp all v member
    have front : Text.skipBlanks (u :: rest) = u :: rest := by rw [Text.skipBlanks,List.dropWhile_cons_of_neg (by simp [solid])]
    have parts : split? ⟨u :: rest⟩ = some ⟨⟨u :: rest⟩,.empty,.empty⟩ := by
      simp only [split?,front,name,nothing]
      simp [starts,Text.skipBlanks]
    simp only [parse,parts,differs,if_false]
    rfl

end Key

/-! ## Building -/

open StoreM

theorem related_of_pairwise {α : Type} {R : α → α → Prop} {xs : List α} (pairwise : xs.Pairwise R) {x y : α}
    (left : x ∈ xs) (right : y ∈ xs) : x = y ∨ R x y ∨ R y x := by
  induction pairwise with
  | nil => cases left
  | cons first _ ih =>
    rcases List.mem_cons.mp left with rfl | later
    · exact (List.mem_cons.mp right).imp Eq.symm fun after => .inl (first y after)
    · rcases List.mem_cons.mp right with rfl | after
      · exact .inr (.inr (first x later))
      · exact ih later after

/-- What building leaves: the nodes there were as they were, new ones not worked on and no unit, and the same session. -/
structure Grown (s t : Store) : Prop extends s.Frame (fun _ => False) t where
  session : t.session = s.session
  idle : ∀ id : Nat, s.nodes.size ≤ id → ¬ (t.node id).Over
  outside : ∀ id : Nat, s.nodes.size ≤ id → (t.node id).unit = none

theorem default_idle : ¬ (default : Node).Over := nofun

namespace Grown

variable {s t u : Store}

theorem node (grown : Grown s t) {id : Nat} (old : id < s.nodes.size) : t.node id = s.node id :=
  grown.same id old fun none => none

theorem refl (s : Store) : Grown s s where
  toFrame := .refl _ s
  session := rfl
  idle id new := by
    rw [Store.node_of_size_le new]
    exact default_idle
  outside id new := by
    rw [Store.node_of_size_le new]
    rfl

theorem trans (first : Grown s t) (second : Grown t u) : Grown s u where
  toFrame := first.toFrame.trans second.toFrame
  session := second.session.trans first.session
  idle id new := by
    by_cases old : id < t.nodes.size
    · rw [second.node old]
      exact first.idle id new
    · exact second.idle id (by omega)
  outside id new := by
    by_cases old : id < t.nodes.size
    · rw [second.node old]
      exact first.outside id new
    · exact second.outside id (by omega)

theorem push {body : Body} (idle : ¬ (Node.fresh body).Over) : Grown s (s.push (.fresh body)) where
  toFrame := .push
  session := rfl
  idle id new := by
    rw [Store.node_push]
    split
    · exact idle
    · rw [Store.node_of_size_le new]
      exact default_idle
  outside id new := by
    rw [Store.node_push]
    split
    · rfl
    · rw [Store.node_of_size_le new]
      rfl

end Grown

theorem Planted.grown {s t : Store} {p : Plot} (planted : Planted s p) (grown : Grown s t) : Planted t p :=
  planted.frame grown.grows fun _ holds => grown.node (Nat.lt_of_le_of_lt holds.2 planted.old)

/-- That content plants a value at the end of the store. -/
def Plants (c : Content) (v : Value) : Prop :=
  ∀ s, ∃ (t : Store) (root : Nat), Runs (plant c) s (.ok root) t ∧ Grown s t ∧
    Planted t ⟨s.nodes.size,root,v⟩ ∧ t.nodes.size = root + 1 ∧ (t.node root).parent = none ∧ (t.node root).isBound = false

/-- That content is read from a value and that building it plants the value. -/
def Buildable (v : Value) : Prop := ∀ path, ∃ c, Content.ofValue path v = .ok c ∧ Plants c v

theorem literal?_of_native {v : Value} (native : v.isNativeScalar = true) :
    ∃ literal, v.literal? = some literal ∧ ∀ path, Content.ofValue path v = .ok (.scalar literal) := by
  cases v <;> simp [Value.isNativeScalar] at native <;> simp [Value.literal?,Content.ofValue,native]

theorem fresh_blank (body : Body) : (Node.fresh body).Blank := ⟨rfl,rfl,rfl,rfl,rfl,rfl⟩

theorem fresh_scalar_idle (literal : Literal) : ¬ (Node.fresh (.scalar literal none)).Over := nofun

theorem fresh_sequence_idle (items : List NodeId) : ¬ (Node.fresh (.sequence items items false)).Over := nofun

theorem fresh_mapping_idle (entries : List NodeId) : ¬ (Node.fresh (.mapping entries false)).Over := nofun

theorem fresh_entry_idle (head : EntryHead) (value : NodeId) :
    ¬ (Node.fresh (.entry head value value none .pending none)).Over := nofun

theorem buildable_scalar {v : Value} (native : v.isNativeScalar = true) : Buildable v := by
  intro path
  obtain ⟨literal,content,read⟩ := literal?_of_native native
  refine ⟨_,read path,fun s => ⟨_,_,newNode_run,.push (fresh_scalar_idle _),?_,by simp,by simp [Node.fresh],by simp [Node.fresh]⟩⟩
  have overridden : v.literal? = some ((none : Option Literal).getD literal) := content
  exact .scalar (by simp) (by simpa using fresh_blank _) (by rw [Store.node_push_new]; rfl) overridden

theorem buildable_items {items : List Value} (buildable : ∀ v ∈ items, Buildable v) (path : Text) (index : Nat) :
    ∃ cs, Content.ofItems path index items = .ok cs ∧ ∀ s, ∃ (t : Store) (parts : List Plot),
      Runs (plantAll cs) s (.ok (parts.map Plot.root)) t ∧ Grown s t ∧ parts.map Plot.value = items ∧
      (∀ p ∈ parts, Planted t p ∧ s.nodes.size ≤ p.first ∧ p.root < t.nodes.size) ∧
      parts.Pairwise fun p q => p.root < q.first := by
  induction items generalizing index with
  | nil => exact ⟨[],rfl,fun s => ⟨s,[],Runs.ok _ _,.refl s,rfl,by simp,.nil⟩⟩
  | cons v rest ih =>
    obtain ⟨c,read,plants⟩ := buildable v (by simp) (Content.itemPath path index)
    obtain ⟨cs,further,rest_plants⟩ := ih (fun v member => buildable v (List.mem_cons_of_mem _ member)) (index + 1)
    refine ⟨c :: cs,by simp [Content.ofItems,read,further,bind,Except.bind,pure,Except.pure],fun s => ?_⟩
    obtain ⟨t,root,run,grown,planted,size,_,_⟩ := plants s
    obtain ⟨u,parts,runs,more,values,each,apart⟩ := rest_plants t
    refine ⟨u,⟨s.nodes.size,root,v⟩ :: parts,run.bind (runs.bind (Runs.ok _ _)),grown.trans more,by simp [values],?_,?_⟩
    · intro p member
      have larger := more.grows
      have before := grown.grows
      rcases List.mem_cons.mp member with rfl | later
      · exact ⟨planted.grown more,Nat.le_refl _,by show root < _; omega⟩
      · obtain ⟨stands,lower,upper⟩ := each p later
        exact ⟨stands,by omega,upper⟩
    · refine List.pairwise_cons.mpr ⟨fun q member => ?_,apart⟩
      have lower := (each q member).2.1
      show root < q.first
      omega

theorem Planted.adopted {s : Store} {p : Plot} {parent : Nat} {children : List Nat} (planted : Planted s p)
    (strangers : ∀ id, p.Holds id → id ≠ p.root → id ∉ children) : Planted (s.adopted parent children) p := by
  refine planted.reroot (by simp) (fun id holds inner => Store.node_adopted_of_not_mem (strangers id holds inner)) ?_ ?_
  all_goals by_cases member : p.root ∈ children
  · obtain ⟨live,shown,optional,untyped,untransformed,pending⟩ := planted.blank
    rw [Store.node_adopted_of_mem member planted.old]
    exact ⟨live,shown,optional,untyped,untransformed,pending⟩
  · rw [Store.node_adopted_of_not_mem member]
    exact planted.blank
  · rw [Store.node_adopted_of_mem member planted.old]
  · rw [Store.node_adopted_of_not_mem member]

theorem Grown.adopted {s t : Store} (grown : Grown s t) {parent : Nat} {children : List Nat}
    (younger : ∀ id ∈ children, s.nodes.size ≤ id) : Grown s (t.adopted parent children) where
  idle id new := by
    by_cases member : id ∈ children
    · by_cases old : id < t.nodes.size
      · rw [Store.node_adopted_of_mem member old]
        exact grown.idle id new
      · rw [Store.node_of_size_le (by simpa using old)]
        exact default_idle
    · rw [Store.node_adopted_of_not_mem member]
      exact grown.idle id new
  outside id new := by
    by_cases member : id ∈ children
    · by_cases old : id < t.nodes.size
      · rw [Store.node_adopted_of_mem member old]
        exact grown.outside id new
      · rw [Store.node_of_size_le (by simpa using old)]
        rfl
    · rw [Store.node_adopted_of_not_mem member]
      exact grown.outside id new
  grows := by simpa using grown.grows
  same id old _ := by
    rw [Store.node_adopted_of_not_mem fun member => by have := younger id member; omega]
    exact grown.node old
  session := by simpa using grown.session

theorem buildable_list {a : Identity} {items : List Value} (buildable : ∀ v ∈ items, Buildable v) :
    Buildable (.list a items) := by
  intro path
  obtain ⟨cs,read,plants⟩ := buildable_items buildable path 0
  refine ⟨.list cs,by simp [Content.ofValue,read],fun s => ?_⟩
  obtain ⟨t,parts,run,grown,rfl,each,apart⟩ := plants s
  have larger := grown.grows
  have stranger : t.nodes.size ∉ parts.map Plot.root := by
    intro member
    obtain ⟨p,here,same⟩ := List.mem_map.mp member
    have := (each p here).2.2
    omega
  have fresh : ((t.push (.fresh (.sequence (parts.map Plot.root) (parts.map Plot.root) false))).adopted t.nodes.size
      (parts.map Plot.root)).node t.nodes.size = .fresh (.sequence (parts.map Plot.root) (parts.map Plot.root) false) := by
    rw [Store.node_adopted_of_not_mem stranger,Store.node_push_new]
  refine ⟨_,t.nodes.size,run.bind (newParent_run _ _ _),(grown.trans (.push (fresh_sequence_idle _))).adopted ?_,?_,by simp,?_,?_⟩
  · intro id member
    obtain ⟨p,here,rfl⟩ := List.mem_map.mp member
    have := (each p here).1.least
    have := (each p here).2.1
    omega
  · refine .list (by simp) (by rw [fresh]; exact fresh_blank _) (by rw [fresh]; rfl) larger (fun p member => (each p member).2) apart
      (fun p member => ?_) fun p member => ?_
    · have old := (each p member).2.2
      rw [Store.node_adopted_of_mem (List.mem_map_of_mem member) (by simp; omega)]
    · refine ((each p member).1.grown (.push (fresh_sequence_idle _))).adopted fun id holds inner among => ?_
      obtain ⟨q,other,rfl⟩ := List.mem_map.mp among
      obtain ⟨lower,upper⟩ : p.first ≤ q.root ∧ q.root ≤ p.root := holds
      have := (each q other).1.least
      rcases related_of_pairwise apart member other with rfl | before | after
      · exact inner rfl
      · omega
      · omega
  · rw [fresh]; rfl
  · rw [fresh]; rfl

/-- A mapping as it was built, with these heads: each entry after the tree in its value slot and before the next tree. -/
structure Sown (s : Store) (first x : Nat) (heads : List EntryHead) (branches : List Branch) : Prop where
  old : x < s.nodes.size
  blank : (s.node x).Blank
  body : (s.node x).body = .mapping (branches.map Branch.entry) false
  least : first ≤ x
  within : ∀ b ∈ branches, first ≤ b.plot.first ∧ b.plot.root < b.entry ∧ b.entry < x
  apart : branches.Pairwise fun b c => b.entry < c.plot.first
  parents : ∀ b ∈ branches, (s.node b.plot.root).parent = some b.entry
  entries : List.Forall₂ (fun head b => head.key.name = b.key ∧ (s.node b.entry).Blank ∧ (s.node b.entry).parent = some x ∧
    (s.node b.entry).body = .entry head b.plot.root b.plot.root none .pending none) heads branches
  planted : ∀ b ∈ branches, Planted s b.plot

/-- Entries are planted one after another, each after the tree in its value slot. -/
theorem plantEntries_run {cs : List (EntryHead × Content)} {values : List Value} (plants : List.Forall₂ (fun p v => Plants p.2 v) cs values)
    (s : Store) : ∃ (t : Store) (branches : List Branch),
      Runs (plantEntries cs) s (.ok (branches.map Branch.entry)) t ∧ Grown s t ∧ branches.map (fun b => b.plot.value) = values ∧
      (∀ b ∈ branches, Planted t b.plot ∧ s.nodes.size ≤ b.plot.first ∧ b.plot.root < b.entry ∧ b.entry < t.nodes.size ∧
        (t.node b.plot.root).parent = some b.entry) ∧
      List.Forall₂ (fun head b => head.key.name = b.key ∧ (t.node b.entry).Blank ∧
        (t.node b.entry).body = .entry head b.plot.root b.plot.root none .pending none) (cs.map Prod.fst) branches ∧
      branches.Pairwise fun b c => b.entry < c.plot.first := by
  induction plants generalizing s with
  | nil => exact ⟨s,[],Runs.ok _ _,.refl s,rfl,by simp,.nil,.nil⟩
  | @cons p v cs values here _ ih =>
    obtain ⟨head,c⟩ := p
    obtain ⟨t,root,run,grown,planted,size,_,_⟩ := here s
    have fresh_entry : ((t.push (.fresh (.entry head root root none .pending none))).adopted t.nodes.size [root]).node
        t.nodes.size = .fresh (.entry head root root none .pending none) := by
      rw [Store.node_adopted_of_not_mem (by simp; omega),Store.node_push_new]
    have entered : Grown s ((t.push (.fresh (.entry head root root none .pending none))).adopted t.nodes.size [root]) :=
      (grown.trans (.push (fresh_entry_idle _ _))).adopted fun id member => by
        obtain rfl : id = root := by simpa using member
        exact planted.least
    obtain ⟨u,branches,runs,more,values,each,heads,apart⟩ :=
      ih ((t.push (.fresh (.entry head root root none .pending none))).adopted t.nodes.size [root])
    have larger := more.grows
    have before := grown.grows
    simp only [Store.size_adopted,Store.size_push] at larger each
    refine ⟨u,⟨head.key.name,t.nodes.size,⟨s.nodes.size,root,v⟩⟩ :: branches,
      run.bind ((newParent_run _ _ _).bind (runs.bind (Runs.ok _ _))),entered.trans more,by simp [values],?_,.cons ⟨rfl,?_,?_⟩ heads,?_⟩
    · intro b member
      rcases List.mem_cons.mp member with rfl | later
      · refine ⟨?_,Nat.le_refl _,by show root < t.nodes.size; omega,by show t.nodes.size < _; omega,?_⟩
        · refine ((planted.grown (.push (fresh_entry_idle _ _))).adopted fun id _ inner => ?_).grown more
          simpa using inner
        · rw [more.node (by simp; omega),Store.node_adopted_of_mem (by simp) (by simp; omega)]
      · obtain ⟨stands,lower,rest⟩ := each b later
        exact ⟨stands,by omega,rest⟩
    · rw [more.node (by simp),fresh_entry]
      exact fresh_blank _
    · rw [more.node (by simp),fresh_entry]
      rfl
    · refine List.pairwise_cons.mpr ⟨fun b member => ?_,apart⟩
      have lower := (each b member).2.1
      show t.nodes.size < b.plot.first
      omega

theorem forall₂_of_mem {α β : Type} {R S : α → β → Prop} {xs : List α} {ys : List β} (all : List.Forall₂ R xs ys)
    (imp : ∀ x, ∀ y ∈ ys, R x y → S x y) : List.Forall₂ S xs ys := by
  induction all with
  | nil => exact .nil
  | cons here _ ih => exact .cons (imp _ _ (by simp) here) (ih fun x y member => imp x y (List.mem_cons_of_mem _ member))

/-- A mapping is planted with its entries, whatever their heads. -/
theorem plantMapping_run {cs : List (EntryHead × Content)} {values : List Value} (plants : List.Forall₂ (fun p v => Plants p.2 v) cs values)
    (s : Store) : ∃ (t : Store) (root : Nat) (branches : List Branch), Runs (plant (.mapping cs)) s (.ok root) t ∧ Grown s t ∧
      Sown t s.nodes.size root (cs.map Prod.fst) branches ∧ branches.map (fun b => b.plot.value) = values ∧
      t.nodes.size = root + 1 ∧ (t.node root).parent = none ∧ (t.node root).isBound = false := by
  obtain ⟨t,branches,run,grown,values,each,heads,apart⟩ := plantEntries_run plants s
  have larger := grown.grows
  have bounds (b : Branch) (member : b ∈ branches) : s.nodes.size ≤ b.plot.first ∧ b.plot.first ≤ b.plot.root ∧
      b.plot.root < b.entry ∧ b.entry < t.nodes.size :=
    have here := each b member
    ⟨here.2.1,here.1.least,here.2.2.1,here.2.2.2.1⟩
  have stranger : t.nodes.size ∉ branches.map Branch.entry := by
    intro member
    obtain ⟨b,here,same⟩ := List.mem_map.mp member
    have := bounds b here
    omega
  -- No entry lies in the stretch of a value, its own or that of another entry.
  have outside (b : Branch) (member : b ∈ branches) (id : Nat) (holds : b.plot.Holds id) : id ∉ branches.map Branch.entry := by
    intro among
    obtain ⟨c,other,rfl⟩ := List.mem_map.mp among
    obtain ⟨lower,upper⟩ : b.plot.first ≤ c.entry ∧ c.entry ≤ b.plot.root := holds
    have here := bounds b member
    have there := bounds c other
    rcases related_of_pairwise apart member other with rfl | before | after
    · omega
    · omega
    · omega
  have fresh : ((t.push (.fresh (.mapping (branches.map Branch.entry) false))).adopted t.nodes.size
      (branches.map Branch.entry)).node t.nodes.size = .fresh (.mapping (branches.map Branch.entry) false) := by
    rw [Store.node_adopted_of_not_mem stranger,Store.node_push_new]
  refine ⟨_,t.nodes.size,branches,run.bind (newParent_run _ _ _),(grown.trans (.push (fresh_mapping_idle _))).adopted ?_,?_,values,by simp,?_,?_⟩
  · intro id member
    obtain ⟨b,here,rfl⟩ := List.mem_map.mp member
    have := bounds b here
    omega
  · refine ⟨by simp,by rw [fresh]; exact fresh_blank _,by rw [fresh]; rfl,larger,fun b member => ?_,apart,
      fun b member => ?_,forall₂_of_mem heads fun head b member here => ?_,fun b member => ?_⟩
    · have := bounds b member
      exact ⟨by omega,by omega,by omega⟩
    · have here := bounds b member
      rw [Store.node_adopted_of_not_mem (outside b member _ ⟨here.2.1,Nat.le_refl _⟩),Store.node_push_old (by omega)]
      exact (each b member).2.2.2.2
    · obtain ⟨key,⟨live,shown,optional,untyped,untransformed,pending⟩,body⟩ := here
      have inside := bounds b member
      rw [Store.node_adopted_of_mem (List.mem_map_of_mem member) (by simp; omega),Store.node_push_old (by omega)]
      exact ⟨key,⟨live,shown,optional,untyped,untransformed,pending⟩,rfl,body⟩
    · exact ((each b member).1.grown (.push (fresh_mapping_idle _))).adopted fun id holds _ => outside b member id holds
  · rw [fresh]; rfl
  · rw [fresh]; rfl

/-- Content that plants pairs under keys that declare nothing, what each head inherits being of some kind. -/
def Spells (kind : Option NodeId → Prop) (cs : List (EntryHead × Content)) (pairs : Pairs) : Prop :=
  List.Forall₂ (fun c p => c.1.key = ⟨p.1,.none⟩ ∧ kind c.1.inherited ∧ Plants c.2 p.2) cs pairs

namespace Spells

variable {kind : Option NodeId → Prop} {cs : List (EntryHead × Content)} {pairs : Pairs} {s : Store} {x : Nat} {branches : List Branch}

theorem plants (spells : Spells kind cs pairs) : List.Forall₂ (fun c v => Plants c.2 v) cs (pairs.map Prod.snd) :=
  List.forall₂_map_right_iff.mpr (spells.imp fun _ _ here => here.2.2)

/-- The entries planted from such content are those of the pairs. -/
theorem sown (spells : Spells kind cs pairs) (values : branches.map (fun b => b.plot.value) = pairs.map Prod.snd)
    (entries : List.Forall₂ (fun head b => head.key.name = b.key ∧ (s.node b.entry).Blank ∧ (s.node b.entry).parent = some x ∧
      (s.node b.entry).body = .entry head b.plot.root b.plot.root none .pending none) (cs.map Prod.fst) branches) :
    branches.map (fun b => (b.key,b.plot.value)) = pairs ∧ ∀ b ∈ branches, (s.node b.entry).Blank ∧ (s.node b.entry).parent = some x ∧
      ∃ inherited, kind inherited ∧ (s.node b.entry).body = .entry ⟨⟨b.key,.none⟩,inherited⟩ b.plot.root b.plot.root none .pending none := by
  induction spells generalizing branches with
  | nil =>
    cases entries
    simp
  | @cons c p cs pairs here _ ih =>
    rw [List.map_cons] at entries
    cases entries with
    | @cons _ b _ branches there rest =>
      obtain ⟨⟨key,inherited⟩,content⟩ := c
      obtain ⟨plain,fine,_⟩ := here
      obtain ⟨named,blank,parent,body⟩ := there
      obtain rfl : key = ⟨p.1,.none⟩ := plain
      have key : p.1 = b.key := named
      obtain ⟨value,values⟩ : b.plot.value = p.2 ∧ branches.map (fun b => b.plot.value) = pairs.map Prod.snd := List.cons.inj values
      obtain ⟨same,all⟩ := ih values rest
      refine ⟨?_,List.forall_mem_cons.mpr ⟨⟨blank,parent,inherited,fine,key ▸ body⟩,all⟩⟩
      rw [List.map_cons,same,← key,value]

end Spells

/-- Pairs whose keys can be read, to keys with names of their own, are read as entries with these keys. -/
theorem ofPairs_declared {pairs : Pairs} {keys : List Key} (parsed : List.Forall₂ (fun p key => Key.parse p.1 = .ok key) pairs keys)
    (distinct : (keys.map Key.name).Nodup) (buildable : ∀ p ∈ pairs, Buildable p.2) (path : Text) (seen : List (Text × Text))
    (unseen : ∀ key ∈ keys, seen.lookup key.name = none) :
    ∃ cs, Content.ofPairs path seen pairs = .ok cs ∧ List.Forall₂ (fun c p => Key.parse p.1 = .ok c.1.key ∧ c.1.inherited = none ∧
      (∃ path, Content.ofValue path p.2 = .ok c.2) ∧ Plants c.2 p.2) cs pairs := by
  induction parsed generalizing seen with
  | nil => exact ⟨[],rfl,.nil⟩
  | @cons p key pairs keys here _ ih =>
    obtain ⟨raw,v⟩ := p
    obtain ⟨fresh,distinct⟩ := List.nodup_cons.mp distinct
    obtain ⟨c,read,plants⟩ := buildable (raw,v) (by simp) (Content.entryPath path key.name)
    obtain ⟨cs,further,all⟩ := ih distinct (fun p member => buildable p (List.mem_cons_of_mem _ member)) ((key.name,raw) :: seen)
      fun other member => by
        have differs : other.name ≠ key.name := fun same => fresh (same ▸ List.mem_map_of_mem member)
        rw [List.lookup_cons,beq_false_of_ne differs]
        exact unseen other (List.mem_cons_of_mem _ member)
    have key_read : Content.readKey path raw = .ok key := by
      rw [Content.readKey,show Key.parse raw = .ok key from here]
    have named : Content.checkName path seen raw key = .ok () := by
      rw [Content.checkName,unseen key (by simp)]
    refine ⟨(⟨key,none⟩,c) :: cs,?_,.cons ⟨here,rfl,⟨_,read⟩,plants⟩ all⟩
    simp [Content.ofPairs,key_read,named,read,further,bind,Except.bind,pure,Except.pure]

/-- Pairs with bare keys are read as entries that declare nothing. -/
theorem ofPairs_bare {pairs : Pairs} (bare : ∀ p ∈ pairs, Key.isBare p.1 = true) (distinct : (Pairs.keys pairs).Nodup)
    (buildable : ∀ p ∈ pairs, Buildable p.2) (path : Text) : ∃ cs, Content.ofPairs path [] pairs = .ok cs ∧ Spells (· = none) cs pairs := by
  have parsed : List.Forall₂ (fun p key => Key.parse p.1 = .ok key) pairs (pairs.map fun p => ⟨p.1,.none⟩) :=
    List.forall₂_map_right_iff.mpr (List.forall₂_same.mpr fun p member => Key.parse_bare (bare p member))
  obtain ⟨cs,read,all⟩ := ofPairs_declared parsed (by rw [List.map_map]; exact distinct) buildable path [] (by simp)
  refine ⟨cs,read,forall₂_of_mem all fun c p member here => ?_⟩
  obtain ⟨parsed,inherits,_,plants⟩ := here
  rw [Key.parse_bare (bare p member)] at parsed
  exact ⟨(Except.ok.inj parsed).symm,inherits,plants⟩

theorem buildable_mapping {a : Identity} {pairs : Pairs} (bare : ∀ p ∈ pairs, Key.isBare p.1 = true)
    (distinct : (Pairs.keys pairs).Nodup) (buildable : ∀ p ∈ pairs, Buildable p.2) : Buildable (.mapping a pairs) := by
  intro path
  obtain ⟨cs,read,spells⟩ := ofPairs_bare bare distinct buildable path
  refine ⟨.mapping cs,by simp [Content.ofValue,read],fun s => ?_⟩
  obtain ⟨t,root,branches,run,grown,⟨old,blank,body,least,within,apart,parents,entries,planted⟩,values,rest⟩ :=
    plantMapping_run spells.plants s
  obtain ⟨rfl,each⟩ := spells.sown values entries
  refine ⟨t,root,run,grown,.mapping old blank body least within apart parents (fun b member => ?_) planted,rest⟩
  obtain ⟨blank,parent,_,rfl,body⟩ := each b member
  exact ⟨blank,parent,body⟩

/-- Plain content can be built. -/
theorem buildable_plain {settings : Settings} {v : Value} (plain : v.isPlain settings = true) : Buildable v := by
  refine Value.plain_induction (motive := Buildable) ?scalar ?list ?mapping v plain
  case scalar => exact fun v native _ => buildable_scalar native
  case list => exact fun id items _ buildable => buildable_list buildable
  case mapping =>
    intro id pairs plain buildable
    obtain ⟨distinct,each⟩ := Value.isPlain_mapping.mp plain
    exact buildable_mapping (fun p member => (each p member).1) distinct buildable

/-- Building plain content plants it at the end of the store, as a tree of its own. -/
theorem build_run {settings : Settings} {v : Value} (plain : v.isPlain settings = true) (path : Text) (s : Store) :
    ∃ (t : Store) (root : Nat), Runs (build v path) s (.ok root) t ∧ Grown s t ∧ Planted t ⟨s.nodes.size,root,v⟩ ∧
      t.nodes.size = root + 1 ∧ (t.node root).parent = none ∧ (t.node root).isBound = false := by
  obtain ⟨c,read,plants⟩ := buildable_plain plain path
  obtain ⟨t,root,run,rest⟩ := plants s
  refine ⟨t,root,?_,rest⟩
  rw [build,read]
  exact (Runs.ok _ _).bind run

end ConfTree
