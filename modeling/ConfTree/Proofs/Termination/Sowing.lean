import Mathlib.Algebra.BigOperators.Intervals
import ConfTree.Proofs.WellFormed.Growth

/-!
Content without modifiers, and the work that it makes. A node is worked on at most three times: it is settled,
what overrides it is put in each of its places, and its value is computed. What of this is still to do has its
toll (`Node.toll`), given a price for what may be put in a place. The nodes of a new tree declare no modifiers if
its content declares none, and their tolls stay below the price and three more for each of them
(`plant_sown`).
-/
namespace ConfTree

open StoreM

/-! ## Content without modifiers -/

/-- Whether a raw key declares no modifiers, if it can be read. -/
def Key.isUnmodified (raw : Text) : Bool :=
  match parse raw with
  | .ok key => key.source.modifiers.isNone
  | .error _ => true

namespace Value

mutual

/-- Whether no key of a mapping in the value declares modifiers. -/
def isUnmodified : Value → Bool
  | .list _ items => areUnmodified items
  | .mapping _ pairs => pairsUnmodified pairs
  | _ => true

def areUnmodified : List Value → Bool
  | [] => true
  | v :: rest => v.isUnmodified && areUnmodified rest

def pairsUnmodified : Pairs → Bool
  | [] => true
  | (raw,v) :: rest => Key.isUnmodified raw && v.isUnmodified && pairsUnmodified rest

end

end Value

/-- The key of an entry declares no modifiers, and the entry inherits none. -/
structure EntryHead.Unmodified (head : EntryHead) : Prop where
  modifiers : head.key.source.modifiers = none
  inherited : head.inherited = none

namespace Content

/-- No entry in the content has modifiers. -/
inductive Unmodified : Content → Prop
  | scalar (literal : Literal) : Unmodified (.scalar literal)
  | list {items : List Content} (items_unmodified : ∀ c ∈ items, Unmodified c) : Unmodified (.list items)
  | mapping {entries : List (EntryHead × Content)} (heads : ∀ p ∈ entries, p.1.Unmodified)
      (values : ∀ p ∈ entries, Unmodified p.2) : Unmodified (.mapping entries)

mutual

/-- How many nodes a tree of the content has. -/
def size : Content → Nat
  | .scalar _ => 1
  | .list items => sizeAll items + 1
  | .mapping entries => sizeEntries entries + 1

def sizeAll : List Content → Nat
  | [] => 0
  | c :: rest => c.size + sizeAll rest

def sizeEntries : List (EntryHead × Content) → Nat
  | [] => 0
  | (_,c) :: rest => c.size + 1 + sizeEntries rest

end

theorem readKey_unmodified {path raw : Text} {key : Key} (read : readKey path raw = .ok key)
    (unmodified : Key.isUnmodified raw = true) : key.source.modifiers = none := by
  rw [readKey] at read
  rw [Key.isUnmodified] at unmodified
  cases parsed : Key.parse raw with
  | error issue => rw [parsed] at read; cases read
  | ok key' =>
    rw [parsed] at read unmodified
    cases read
    exact Option.isNone_iff_eq_none.mp unmodified

mutual

/-- What is read from a value without modifiers has none. -/
theorem ofValue_unmodified (v : Value) (unmodified : v.isUnmodified = true) {path : Text} {c : Content}
    (read : ofValue path v = .ok c) : c.Unmodified := by
  cases v with
  | list id items =>
    rw [ofValue] at read
    obtain ⟨cs,inner,rfl⟩ := ok_of_map read
    exact .list (ofItems_unmodified items (by rwa [Value.isUnmodified] at unmodified) inner)
  | mapping id pairs =>
    rw [ofValue] at read
    obtain ⟨entries,inner,rfl⟩ := ok_of_map read
    obtain ⟨heads,values⟩ := ofPairs_unmodified pairs (by rwa [Value.isUnmodified] at unmodified) inner
    exact .mapping heads values
  | number n =>
    rw [ofValue] at read
    split at read
    · cases read
      exact .scalar _
    · cases read
  | null | bool b | text t =>
    rw [ofValue] at read
    cases read
    exact .scalar _
  | _ =>
    rw [ofValue] at read
    cases read

theorem ofItems_unmodified (items : List Value) (unmodified : Value.areUnmodified items = true) {path : Text} {index : Nat}
    {cs : List Content} (read : ofItems path index items = .ok cs) : ∀ c ∈ cs, c.Unmodified := by
  cases items with
  | nil =>
    rw [ofItems] at read
    cases read
    exact nofun
  | cons v rest =>
    rw [Value.areUnmodified] at unmodified
    obtain ⟨here,there⟩ := Bool.and_eq_true_iff.mp unmodified
    rw [ofItems] at read
    obtain ⟨c,first,read⟩ := ok_of_bind read
    obtain ⟨more,later,read⟩ := ok_of_bind read
    cases read
    intro d member
    rcases List.mem_cons.mp member with rfl | member
    · exact ofValue_unmodified v here first
    · exact ofItems_unmodified rest there later d member

theorem ofPairs_unmodified (pairs : Pairs) (unmodified : Value.pairsUnmodified pairs = true) {path : Text}
    {seen : List (Text × Text)} {entries : List (EntryHead × Content)} (read : ofPairs path seen pairs = .ok entries) :
    (∀ p ∈ entries, p.1.Unmodified) ∧ ∀ p ∈ entries, p.2.Unmodified := by
  cases pairs with
  | nil =>
    rw [ofPairs] at read
    cases read
    exact ⟨nofun,nofun⟩
  | cons p rest =>
    obtain ⟨raw,v⟩ := p
    rw [Value.pairsUnmodified] at unmodified
    obtain ⟨here,there⟩ := Bool.and_eq_true_iff.mp unmodified
    obtain ⟨bare,inside⟩ := Bool.and_eq_true_iff.mp here
    rw [ofPairs] at read
    obtain ⟨key,named,read⟩ := ok_of_bind read
    obtain ⟨_,_,read⟩ := ok_of_bind read
    obtain ⟨c,first,read⟩ := ok_of_bind read
    obtain ⟨more,later,read⟩ := ok_of_bind read
    cases read
    obtain ⟨heads,values⟩ := ofPairs_unmodified rest there later
    refine ⟨fun q member => ?_,fun q member => ?_⟩
    · rcases List.mem_cons.mp member with rfl | member
      · exact ⟨readKey_unmodified named bare,rfl⟩
      · exact heads q member
    · rcases List.mem_cons.mp member with rfl | member
      · exact ofValue_unmodified v inside first
      · exact values q member

end

end Content

/-! ## Tolls -/

namespace Body

/-- The declaration of an entry, also once it is evaluated, has no modifiers. -/
def Unmodified : Body → Prop
  | .entry head _ _ _ _ evaluated => head.Unmodified ∧ ∀ d, evaluated = some d → d.modifiers = []
  | _ => True

/-- What it still takes to settle a node of this body, at a price for what is put in a place. -/
def toll (price : Nat) : Body → Nat
  | .scalar .. => 0
  | .sequence items _ isSettled => if isSettled then 0 else items.length * price + 1
  | .mapping _ isSettled => if isSettled then 0 else 1
  | .entry _ _ _ _ .pending _ => price + 1
  | .entry .. => 0

/-- A body takes at most the price of each of its places. -/
theorem toll_le (price : Nat) (b : Body) : b.toll price ≤ b.below.length * price + 1 := by
  cases b with
  | scalar => simp [toll]
  | sequence items declared isSettled => cases isSettled <;> simp [toll,below]
  | mapping entries isSettled => cases isSettled <;> simp [toll]
  | entry head slot declared renamed modification evaluated => cases modification <;> simp [toll,below]

end Body

namespace Node

/-- What the work on a node still takes, at a price for what is put in a place. -/
def toll (price : Nat) (n : Node) : Nat :=
  n.body.toll price + match n.resolution with
    | .pending => 1
    | _ => 0

theorem toll_fresh (price : Nat) (body : Body) : (fresh body).toll price = body.toll price + 1 := rfl

end Node

/-! ## New trees -/

namespace Store

variable {s t u : Store} {price n : Nat} {ids : List Nat}

/-- The new nodes of the second store have no modifiers, and each of them belongs in its place, the tops of new trees
apart; their tolls, and a price for each top, stay below the price and three more for each of `n` nodes. -/
structure Sown (price : Nat) (s t : Store) (tops : List Nat) (n : Nat) : Prop where
  grows : s.nodes.size ≤ t.nodes.size
  unmodified : ∀ x, s.nodes.size ≤ x → (t.node x).body.Unmodified ∧ t.Live x
  within : ∀ x p, s.nodes.size ≤ x → (t.node x).parent = some p → s.nodes.size ≤ p
  entries : ∀ x, s.nodes.size ≤ x → t.kind x = .entry → x ∈ tops ∨ ∃ m, (t.node x).parent = some m ∧ t.kind m = .mapping
  toll : ∑ x ∈ Finset.Ico s.nodes.size t.nodes.size, (t.node x).toll price + tops.length * price ≤ n * (price + 3)

namespace Sown

theorem nil (price : Nat) (s : Store) : Sown price s s [] 0 where
  grows := Nat.le_refl _
  unmodified x new := by
    rw [Live,node_of_size_le new]
    exact ⟨trivial,rfl⟩
  within x p new parent := by
    rw [node_of_size_le new] at parent
    cases parent
  entries x new kind := by
    rw [Store.kind,node_of_size_le new] at kind
    cases kind
  toll := by simp

theorem append {id n' : Nat} (first : Sown price s t [id] n) (rest : Sown price t u ids n') (grows : t.Grows u) :
    Sown price s u (id :: ids) (n + n') where
  grows := Nat.le_trans first.grows rest.grows
  unmodified x new := by
    by_cases old : x < t.nodes.size
    · rw [Live,grows.old x old]
      exact first.unmodified x new
    · exact rest.unmodified x (Nat.le_of_not_lt old)
  within x p new parent := by
    by_cases old : x < t.nodes.size
    · rw [grows.old x old] at parent
      exact first.within x p new parent
    · exact Nat.le_trans first.grows (rest.within x p (Nat.le_of_not_lt old) parent)
  entries x new kind := by
    by_cases old : x < t.nodes.size
    · rw [Store.kind,grows.old x old] at kind
      rcases first.entries x new kind with top | ⟨m,parent,mapping⟩
      · exact .inl (List.mem_cons.mpr (.inl (List.mem_singleton.mp top)))
      · have known := old_of_mapping mapping
        refine .inr ⟨m,by rw [grows.old x old]; exact parent,?_⟩
        rw [Store.kind,grows.old m known]
        exact mapping
    · exact (rest.entries x (Nat.le_of_not_lt old) kind).imp_left (List.mem_cons_of_mem _)
  toll := by
    have early : ∑ x ∈ Finset.Ico s.nodes.size t.nodes.size, (u.node x).toll price =
        ∑ x ∈ Finset.Ico s.nodes.size t.nodes.size, (t.node x).toll price :=
      Finset.sum_congr rfl fun x member => by rw [grows.old x (Finset.mem_Ico.mp member).2]
    rw [← Finset.sum_Ico_consecutive _ first.grows rest.grows,early]
    have one := first.toll
    have two := rest.toll
    simp only [List.length_cons,Nat.add_mul,Nat.one_mul] at one ⊢
    omega

/-- A new node above new trees. -/
theorem bearing {body : Body} (sown : Sown price s t ids n) (bears : Bears t body ids)
    (unmodified : body.Unmodified) (homes : (∃ id ∈ ids, t.kind id = .entry) → body.kind = .mapping) :
    Sown price s (t.bearing body ids) [t.nodes.size] (n + 1) where
  grows := Nat.le_trans sown.grows (by simp [Store.bearing])
  unmodified x later := by
    by_cases last : x = t.nodes.size
    · rw [last,Live,bears.node_new]
      exact ⟨unmodified,rfl⟩
    · rw [(bears.node_old last).1,bears.live_old last]
      exact sown.unmodified x later
  within x p later parent := by
    rcases bears.up_inv (.inr parent) with ⟨_,stranger,last⟩ | ⟨_,rfl⟩
    · rw [Bears.node_other stranger last] at parent
      exact sown.within x p later parent
    · exact sown.grows
  entries x later kind := by
    by_cases last : x = t.nodes.size
    · exact .inl (List.mem_singleton.mpr last)
    · rw [bears.kind_old last] at kind
      by_cases member : x ∈ ids
      · refine .inr ⟨t.nodes.size,by rw [bears.node_child member],?_⟩
        rw [bears.kind_new]
        exact homes ⟨x,member,kind⟩
      · obtain ⟨m,parent,mapping⟩ := (sown.entries x later kind).resolve_left member
        refine .inr ⟨m,by rw [Bears.node_other member last]; exact parent,?_⟩
        rw [bears.kind_old (Nat.ne_of_lt (old_of_mapping mapping))]
        exact mapping
  toll := by
    have size : (t.bearing body ids).nodes.size = t.nodes.size + 1 := by simp [Store.bearing]
    have early : ∑ x ∈ Finset.Ico s.nodes.size t.nodes.size, ((t.bearing body ids).node x).toll price =
        ∑ x ∈ Finset.Ico s.nodes.size t.nodes.size, (t.node x).toll price := by
      refine Finset.sum_congr rfl fun x member => ?_
      have last : x ≠ t.nodes.size := Nat.ne_of_lt (Finset.mem_Ico.mp member).2
      by_cases child : x ∈ ids
      · rw [bears.node_child child]
        rfl
      · rw [Bears.node_other child last]
    have before := sown.toll
    have here := body.toll_le price
    rw [bears.below] at here
    rw [size,Finset.sum_Ico_succ_top sown.grows,early,bears.node_new,Node.toll_fresh]
    simp only [List.length_singleton,Nat.add_mul,Nat.one_mul]
    omega

end Sown

end Store

open Store

variable {s t : Store} {price : Nat}

mutual

/-- The nodes of a tree of content without modifiers, and the work that they make. -/
theorem plant_sown (price : Nat) (c : Content) (distinct : c.Distinct) (unmodified : c.Unmodified) {s t : Store} {id : NodeId}
    (form : s.WellFormed) (run : Runs (plant c) s (.ok id) t) : s.Sown price t [id] c.size ∧ t.kind id ≠ .entry := by
  cases c with
  | scalar literal =>
    obtain ⟨same,rfl⟩ := Runs.unique run newNode_run
    obtain rfl := Except.ok.inj same
    have bears : Bears s (.scalar literal none) [] := (Sprouts.nil form).bears rfl nofun nofun
    exact ⟨(Sown.nil price s).bearing bears trivial nofun,by rw [Store.kind,node_push_new]; exact nofun⟩
  | list items =>
    cases distinct with
    | list items_distinct =>
    cases unmodified with
    | list items_unmodified =>
    obtain ⟨ids,u,inner,last⟩ := Runs.bind_ok run
    obtain ⟨same,rfl⟩ := Runs.unique last (newParent_run _ _ _)
    obtain rfl := Except.ok.inj same
    obtain ⟨ids',u',inner',sprouts⟩ := plantAll_sprouts items items_distinct form
    obtain ⟨same,rfl⟩ := Runs.unique inner inner'
    obtain rfl := Except.ok.inj same
    obtain ⟨sown,tops⟩ := plantAll_sown price items items_distinct items_unmodified form inner
    have bears : Bears u (.sequence ids ids false) ids := sprouts.bears rfl nofun nofun
    have kind : (u.bearing (.sequence ids ids false) ids).kind u.nodes.size = .sequence := bears.kind_new
    refine ⟨sown.bearing bears trivial fun ⟨id,member,entry⟩ => absurd entry (tops id member),?_⟩
    exact fun entry => nomatch kind.symm.trans entry
  | mapping entries =>
    cases distinct with
    | mapping keys values =>
    cases unmodified with
    | mapping heads values_unmodified =>
    obtain ⟨ids,u,inner,last⟩ := Runs.bind_ok run
    obtain ⟨same,rfl⟩ := Runs.unique last (newParent_run _ _ _)
    obtain rfl := Except.ok.inj same
    obtain ⟨ids',u',inner',sprouts,kinds,names⟩ := plantEntries_sprouts entries values form
    obtain ⟨same,rfl⟩ := Runs.unique inner inner'
    obtain rfl := Except.ok.inj same
    have sown := plantEntries_sown price entries values heads values_unmodified form inner
    have bears : Bears u (.mapping ids false) ids := sprouts.bears rfl (fun _ => ⟨kinds,names ▸ keys⟩) nofun
    have kind : (u.bearing (.mapping ids false) ids).kind u.nodes.size = .mapping := bears.kind_new
    exact ⟨sown.bearing bears trivial fun _ => rfl,fun entry => nomatch kind.symm.trans entry⟩

theorem plantAll_sown (price : Nat) (cs : List Content) (distinct : ∀ c ∈ cs, c.Distinct) (unmodified : ∀ c ∈ cs, c.Unmodified)
    {s t : Store} {ids : List NodeId} (form : s.WellFormed) (run : Runs (plantAll cs) s (.ok ids) t) :
    s.Sown price t ids (Content.sizeAll cs) ∧ ∀ id ∈ ids, t.kind id ≠ .entry := by
  cases cs with
  | nil =>
    obtain ⟨same,rfl⟩ := Runs.pure_iff.mp run
    obtain rfl := Except.ok.inj same
    exact ⟨.nil price _,nofun⟩
  | cons c rest =>
    obtain ⟨id,u,first,run⟩ := Runs.bind_ok run
    obtain ⟨more,v,later,run⟩ := Runs.bind_ok run
    obtain ⟨same,rfl⟩ := Runs.pure_iff.mp run
    obtain rfl := Except.ok.inj same
    have distinct_rest := fun c member => distinct c (List.mem_cons_of_mem _ member)
    obtain ⟨id',u',first',sprouts⟩ := plant_sprouts c (distinct c (by simp)) form
    obtain ⟨same,rfl⟩ := Runs.unique first first'
    obtain rfl := Except.ok.inj same
    obtain ⟨more',v',later',further⟩ := plantAll_sprouts rest distinct_rest sprouts.form
    obtain ⟨same,rfl⟩ := Runs.unique later later'
    obtain ⟨sown,top⟩ := plant_sown price c (distinct c (by simp)) (unmodified c (by simp)) form first
    obtain ⟨sown',tops⟩ := plantAll_sown price rest distinct_rest (fun c member => unmodified c (List.mem_cons_of_mem _ member)) sprouts.form later
    refine ⟨sown.append sown' further.grows,fun other member => ?_⟩
    rcases List.mem_cons.mp member with rfl | member
    · rw [Store.kind,further.grows.old _ (sprouts.loose _ (List.mem_singleton.mpr rfl)).1.known]
      exact top
    · exact tops other member

theorem plantEntries_sown (price : Nat) (cs : List (EntryHead × Content)) (distinct : ∀ p ∈ cs, p.2.Distinct)
    (heads : ∀ p ∈ cs, p.1.Unmodified) (values : ∀ p ∈ cs, p.2.Unmodified) {s t : Store} {ids : List NodeId} (form : s.WellFormed)
    (run : Runs (plantEntries cs) s (.ok ids) t) : s.Sown price t ids (Content.sizeEntries cs) := by
  cases cs with
  | nil =>
    obtain ⟨same,rfl⟩ := Runs.pure_iff.mp run
    obtain rfl := Except.ok.inj same
    exact .nil price _
  | cons p rest =>
    obtain ⟨head,c⟩ := p
    obtain ⟨value,u,first,run⟩ := Runs.bind_ok run
    obtain ⟨entry,v,second,run⟩ := Runs.bind_ok run
    obtain ⟨more,w,later,run⟩ := Runs.bind_ok run
    obtain ⟨same,rfl⟩ := Runs.pure_iff.mp run
    obtain rfl := Except.ok.inj same
    obtain ⟨same,rfl⟩ := Runs.unique second (newEntry_run head value u)
    obtain rfl := Except.ok.inj same
    have distinct_rest := fun p member => distinct p (List.mem_cons_of_mem _ member)
    obtain ⟨value',u',first',sprouts⟩ := plant_sprouts c (distinct (head,c) (by simp)) form
    obtain ⟨same,rfl⟩ := Runs.unique first first'
    obtain rfl := Except.ok.inj same
    have bears : Bears u (.entry head value value none .pending none) [value] := sprouts.bears rfl nofun nofun
    have form' := (sprouts.entry head).form
    obtain ⟨more',v',later',further,_⟩ := plantEntries_sprouts rest distinct_rest form'
    obtain ⟨same,rfl⟩ := Runs.unique later later'
    obtain ⟨sown,top⟩ := plant_sown price c (distinct (head,c) (by simp)) (values (head,c) (by simp)) form first
    have here := sown.bearing bears ⟨heads (head,c) (by simp),nofun⟩ fun ⟨id,member,kind⟩ =>
      absurd kind (List.mem_singleton.mp member ▸ top)
    exact here.append (plantEntries_sown price rest distinct_rest (fun p member => heads p (List.mem_cons_of_mem _ member))
      (fun p member => values p (List.mem_cons_of_mem _ member)) form' later) further.grows

end

end ConfTree
