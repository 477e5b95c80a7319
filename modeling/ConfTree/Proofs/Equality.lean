import Mathlib.Data.Fintype.EquivFin
import ConfTree.Proofs.Overrides.Edit
import ConfTree.Value.Equality

/-!
# Equality as a relation

How far the language's `==` is an equivalence. It is transitive, and a value without a not-a-number equals all of its
copies. Sets are compared by their sizes and by containment one way, so `==` is symmetric where no set holds two members that
are equal to each other (`equal_comm`); sets made of scalars and objects are such (`members_apart`), sets made of lists need
not be.
-/
namespace ConfTree

theorem Number.same_comm (x y : Number) : x.same y = y.same x := by
  cases x <;> cases y <;> simp [Number.same,Bool.beq_comm,Number.steps?]

theorem Number.same_trans {x y z : Number} (left : x.same y = true) (right : y.same z = true) : x.same z = true := by
  cases x <;> cases y <;> cases z <;> simp_all [Number.same,Number.steps?]

theorem Number.same_zero (x : Number) : x.same zero = x.same .negZero := by
  cases x <;> simp [Number.same,Number.zero,Number.steps?]

theorem Number.same_self {x : Number} (number : x.isNaN = false) : x.same x = true := by
  cases x <;> simp_all [Number.same,Number.isNaN,Number.steps?]

theorem Object.same_comm (a b : Object) : a.same b = b.same a := by
  cases a <;> cases b <;> simp [Object.same,Bool.beq_comm]

theorem Object.same_trans {a b c : Object} (left : a.same b = true) (right : b.same c = true) : a.same c = true := by
  cases a <;> cases b <;> cases c <;> simp_all [Object.same]

theorem Object.same_self (a : Object) : a.same a = true := by
  cases a <;> simp [Object.same]

namespace Value

/-- No list, set or mapping. -/
def isAtom : Value → Bool
  | .list .. | .set .. | .mapping .. => false
  | _ => true

theorem identical_comm (a b : Value) : identical a b = identical b a := by
  cases a <;> cases b <;> simp [identical,Bool.beq_comm,Number.same_comm,Object.same_comm]

theorem isAtom_of_identical {a b : Value} (same : identical a b = true) : a.isAtom = b.isAtom := by
  cases a <;> cases b <;> first | rfl | cases same

theorem identical_trans {a b c : Value} (left : identical a b = true) (right : identical b c = true) (atom : b.isAtom = true) :
    identical a c = true := by
  cases b with
  | list | set | mapping => cases atom
  | number y =>
    cases a <;> cases c <;> first | exact Number.same_trans left right | cases left | cases right
  | object o =>
    cases a <;> cases c <;> first | exact Object.same_trans left right | cases left | cases right
  | _ => cases a <;> cases c <;> first | cases left; done | cases right; done | simp_all [identical]

theorem equalFrom_atom_left {reversed : Bool} {a b : Value} (atom : a.isAtom = true) : equalFrom reversed a b = identical a b := by
  cases a <;> first | rfl | cases atom

theorem equalFrom_atom_right {reversed : Bool} {a b : Value} (atom : b.isAtom = true) : equalFrom reversed a b = identical a b := by
  cases b <;> first | (cases a <;> rfl) | cases atom

/-! ## The two directions -/

/-- What holds of atoms, and of a list, a set or a mapping when it holds of all that is in it, holds of every value. -/
theorem parts_induction {motive : Value → Prop} (atom : ∀ v, v.isAtom = true → motive v)
    (list : ∀ id xs, (∀ x ∈ xs, motive x) → motive (.list id xs))
    (set : ∀ id xs, (∀ x ∈ xs, motive x) → motive (.set id xs))
    (mapping : ∀ id pairs, (∀ p ∈ pairs, motive p.2) → motive (.mapping id pairs)) (v : Value) : motive v := by
  match v with
  | .list id xs => exact list id xs fun x member => parts_induction atom list set mapping x
  | .set id xs => exact set id xs fun x member => parts_induction atom list set mapping x
  | .mapping id pairs => exact mapping id pairs fun p member => parts_induction atom list set mapping p.2
  | .null | .undefined | .bool _ | .number _ | .text _ | .object _ => exact atom _ rfl
termination_by sizeOf v
decreasing_by
  · have := List.sizeOf_lt_of_mem member
    simp +arith; omega
  · have := List.sizeOf_lt_of_mem member
    simp +arith; omega
  · have := List.sizeOf_lt_of_mem member
    rcases p with ⟨key,v⟩
    simp at *; omega

section Characterized

variable {reversed : Bool} {xs ys : List Value} {ps qs : Pairs}

theorem equalItems_iff : equalItems reversed xs ys = true ↔ List.Forall₂ (fun x y => equalFrom reversed x y = true) xs ys := by
  induction xs generalizing ys with
  | nil => cases ys <;> simp [equalItems]
  | cons x rest ih => cases ys <;> simp [equalItems,ih]

theorem allMet_iff : allMet xs ys = true ↔ ∀ x ∈ xs, ∃ y ∈ ys, equalFrom true x y = true := by
  induction xs with
  | nil => simp [allMet]
  | cons x rest ih => simp [allMet,ih]

theorem anyEqual_iff {y : Value} : anyEqual xs y = true ↔ ∃ x ∈ xs, equalFrom false x y = true := by
  induction xs with
  | nil => simp [anyEqual]
  | cons x rest ih => simp [anyEqual,ih]

theorem equalPairs_iff : equalPairs reversed ps qs = true ↔
    ∀ p ∈ ps, ∃ w, Pairs.get? qs p.1 = some w ∧ equalFrom reversed p.2 w = true := by
  induction ps with
  | nil => simp [equalPairs]
  | cons p rest ih =>
    obtain ⟨key,v⟩ := p
    rw [equalPairs,Bool.and_eq_true,ih,List.forall_mem_cons]
    refine and_congr ?_ Iff.rfl
    cases Pairs.get? qs key <;> simp

end Characterized

end Value

namespace Pairs

variable {R : Value → Value → Prop} {ps qs : Pairs}

/-- As many pairs, and under each key of the first ones a related value in the second ones. -/
def Fits (R : Value → Value → Prop) (ps qs : Pairs) : Prop :=
  ps.length = qs.length ∧ ∀ p ∈ ps, ∃ w, get? qs p.1 = some w ∧ R p.2 w

theorem Fits.swap {R' : Value → Value → Prop} (fits : Fits R ps qs) (distinct : (keys ps).Nodup) (distinct' : (keys qs).Nodup)
    (back : ∀ p ∈ ps, ∀ q ∈ qs, R p.2 q.2 → R' q.2 p.2) : Fits R' qs ps := by
  obtain ⟨size,each⟩ := fits
  refine ⟨size.symm,fun q listed => ?_⟩
  have found : keys ps ⊆ keys qs := by
    intro key named
    obtain ⟨p,member,rfl⟩ := List.mem_map.mp named
    obtain ⟨w,present,_⟩ := each p member
    exact List.mem_map.mpr ⟨_,(get?_eq_some_iff distinct').mp present,rfl⟩
  have perm : (keys ps).Perm (keys qs) :=
    (distinct.subperm found).perm_of_length_le (by simp [keys,size])
  obtain ⟨p,member,same⟩ := List.mem_map.mp (perm.mem_iff.mpr (List.mem_map_of_mem listed))
  obtain ⟨w,present,related⟩ := each p member
  rw [same,(get?_eq_some_iff distinct').mpr listed] at present
  obtain rfl := Option.some.inj present
  exact ⟨p.2,(get?_eq_some_iff distinct).mpr (same ▸ member),back p member q listed related⟩

theorem fits_comm {R' : Value → Value → Prop} (distinct : (keys ps).Nodup) (distinct' : (keys qs).Nodup)
    (same : ∀ p ∈ ps, ∀ q ∈ qs, (R p.2 q.2 ↔ R' q.2 p.2)) : Fits R ps qs ↔ Fits R' qs ps :=
  ⟨fun fits => fits.swap distinct distinct' fun p member q listed => (same p member q listed).mp,
    fun fits => fits.swap distinct' distinct fun q listed p member => (same p member q listed).mpr⟩

theorem Fits.trans {R' R'' : Value → Value → Prop} {rs : Pairs} (before : Fits R ps qs) (after : Fits R' qs rs)
    (compose : ∀ p ∈ ps, ∀ q ∈ qs, ∀ r ∈ rs, R p.2 q.2 → R' q.2 r.2 → R'' p.2 r.2) : Fits R'' ps rs := by
  refine ⟨before.1.trans after.1,fun p member => ?_⟩
  obtain ⟨w,present,related⟩ := before.2 p member
  have listed := List.mem_iff_getElem?.mpr (getElem?_of_get? present)
  obtain ⟨u,present',related'⟩ := after.2 _ listed
  have listed' := List.mem_iff_getElem?.mpr (getElem?_of_get? present')
  exact ⟨u,present',compose p member _ listed _ listed' related related'⟩

end Pairs

namespace Value

variable {R : Value → Value → Prop} {xs ys zs : List Value}

/-- As many values, and for each of the first ones a related one among the second ones. -/
def Covered (R : Value → Value → Prop) (xs ys : List Value) : Prop :=
  xs.length = ys.length ∧ ∀ x ∈ xs, ∃ y ∈ ys, R x y

/-- Where no two values can be covered by one, covering is onto. -/
theorem Covered.swap (covered : Covered R xs ys) (apart : xs.Pairwise fun x x' => ∀ y ∈ ys, R x y → ¬ R x' y) :
    Covered (fun y x => R x y) ys xs := by
  obtain ⟨size,each⟩ := covered
  have placed (i : Fin xs.length) : ∃ j : Fin ys.length, R xs[i] ys[j] := by
    obtain ⟨y,member,related⟩ := each xs[i] (List.getElem_mem i.2)
    obtain ⟨j,inside,rfl⟩ := List.getElem_of_mem member
    exact ⟨⟨j,inside⟩,related⟩
  choose place related using placed
  have injective : Function.Injective place := by
    intro i k same
    by_contra differ
    rcases Nat.lt_or_gt_of_ne (Fin.val_ne_of_ne differ) with before | before
    · exact List.pairwise_iff_getElem.mp apart i k i.2 k.2 before _ (List.getElem_mem (place i).2) (related i) (same ▸ related k)
    · exact List.pairwise_iff_getElem.mp apart k i k.2 i.2 before _ (List.getElem_mem (place k).2) (related k) (same ▸ related i)
  have onto := ((Fintype.bijective_iff_injective_and_card place).mpr ⟨injective,by simpa using size⟩).2
  refine ⟨size.symm,fun y member => ?_⟩
  obtain ⟨j,inside,rfl⟩ := List.getElem_of_mem member
  obtain ⟨i,there⟩ := onto ⟨j,inside⟩
  exact ⟨xs[i],List.getElem_mem i.2,by simpa [there] using related i⟩

theorem covered_congr {R' : Value → Value → Prop} (same : ∀ x ∈ xs, ∀ y ∈ ys, (R x y ↔ R' x y)) : Covered R xs ys ↔ Covered R' xs ys :=
  and_congr Iff.rfl (forall₂_congr fun x inside => exists_congr fun y => and_congr_right fun inside' => same x inside y inside')

theorem Covered.trans {R' R'' : Value → Value → Prop} (before : Covered R xs ys) (after : Covered R' ys zs)
    (compose : ∀ x ∈ xs, ∀ y ∈ ys, ∀ z ∈ zs, R x y → R' y z → R'' x z) : Covered R'' xs zs := by
  refine ⟨before.1.trans after.1,fun x member => ?_⟩
  obtain ⟨y,listed,related⟩ := before.2 x member
  obtain ⟨z,listed',related'⟩ := after.2 y listed
  exact ⟨z,listed',compose x member y listed z listed' related related'⟩

theorem forall₂_comm {R' : Value → Value → Prop} (same : ∀ x ∈ xs, ∀ y ∈ ys, (R x y ↔ R' y x)) :
    List.Forall₂ R xs ys ↔ List.Forall₂ R' ys xs := by
  induction xs generalizing ys with
  | nil => cases ys <;> simp
  | cons x rest ih =>
    cases ys with
    | nil => simp
    | cons y rest' =>
      rw [List.forall₂_cons,List.forall₂_cons,same x List.mem_cons_self y List.mem_cons_self]
      exact and_congr Iff.rfl
        (ih fun x inside y inside' => same x (List.mem_cons_of_mem _ inside) y (List.mem_cons_of_mem _ inside'))

theorem forall₂_trans {R' R'' : Value → Value → Prop} (before : List.Forall₂ R xs ys) (after : List.Forall₂ R' ys zs)
    (compose : ∀ x ∈ xs, ∀ y ∈ ys, ∀ z ∈ zs, R x y → R' y z → R'' x z) : List.Forall₂ R'' xs zs := by
  induction before generalizing zs with
  | nil => cases after; exact .nil
  | cons here _ ih =>
    cases after with
    | cons there rest =>
      refine .cons (compose _ List.mem_cons_self _ List.mem_cons_self _ List.mem_cons_self here there) (ih rest ?_)
      exact fun x inside y inside' z inside'' =>
        compose x (List.mem_cons_of_mem _ inside) y (List.mem_cons_of_mem _ inside') z (List.mem_cons_of_mem _ inside'')

/-! ## Equality part by part -/

section Characterized

variable {reversed : Bool} {i j : Identity} {ps qs : Pairs}

theorem equalFrom_list : equalFrom reversed (.list i xs) (.list j ys) = true ↔
    i = j ∨ List.Forall₂ (fun x y => equalFrom reversed x y = true) xs ys := by
  rw [equalFrom,Bool.or_eq_true,beq_iff_eq,equalItems_iff]

theorem equalFrom_set : equalFrom false (.set i xs) (.set j ys) = true ↔
    i = j ∨ Covered (fun x y => equalFrom true x y = true) xs ys := by
  simp [equalFrom,Covered,allMet_iff]

theorem equalFrom_set_reversed : equalFrom true (.set i xs) (.set j ys) = true ↔
    i = j ∨ Covered (fun y x => equalFrom false x y = true) ys xs := by
  simp [equalFrom,Covered,anyEqual_iff,eq_comm (a := xs.length)]

theorem equalFrom_mapping : equalFrom reversed (.mapping i ps) (.mapping j qs) = true ↔
    i = j ∨ Pairs.Fits (fun v w => equalFrom reversed v w = true) ps qs := by
  rw [equalFrom,Bool.or_eq_true,beq_iff_eq,Bool.and_eq_true,beq_iff_eq,equalPairs_iff,Pairs.Fits]

end Characterized

/-! ## Stocks and copies -/

/-- Values such that what is in one of them is one of them, a mapping has each key once, and one identity is that of one
list, set or mapping. -/
structure Stock (S : Value → Prop) : Prop where
  items : ∀ {id xs}, S (.list id xs) → ∀ x ∈ xs, S x
  members : ∀ {id xs}, S (.set id xs) → ∀ x ∈ xs, S x
  values : ∀ {id ps}, S (.mapping id ps) → ∀ p ∈ ps, S p.2
  keyed : ∀ {id ps}, S (.mapping id ps) → (Pairs.keys ps).Nodup
  lists : ∀ {id xs ys}, S (.list id xs) → S (.list id ys) → xs = ys
  sets : ∀ {id xs ys}, S (.set id xs) → S (.set id ys) → xs = ys
  mappings : ∀ {id ps qs}, S (.mapping id ps) → S (.mapping id qs) → ps = qs

section InStock

variable {S : Value → Prop} {a b c : Value}

/-- With `reversed` the comparison is the one the other way round. -/
theorem equalFrom_reversed (stock : Stock S) (left : S a) (right : S b) :
    equalFrom true a b = equalFrom false b a ∧ equalFrom true b a = equalFrom false a b := by
  induction a using parts_induction generalizing b with
  | atom v atom =>
    rw [equalFrom_atom_left atom,equalFrom_atom_left atom,equalFrom_atom_right atom,equalFrom_atom_right atom,identical_comm]
    exact ⟨rfl,rfl⟩
  | list i xs ih =>
    cases b with
    | list j ys =>
      have flip (x) (inside : x ∈ xs) (y) (inside' : y ∈ ys) := ih x inside (stock.items left x inside) (stock.items right y inside')
      refine ⟨Bool.eq_iff_iff.mpr ?_,Bool.eq_iff_iff.mpr ?_⟩
      · rw [equalFrom_list,equalFrom_list]
        exact or_congr eq_comm (forall₂_comm fun x inside y inside' => by rw [(flip x inside y inside').1])
      · rw [equalFrom_list,equalFrom_list]
        exact or_congr eq_comm (forall₂_comm fun y inside' x inside => by rw [(flip x inside y inside').2])
    | _ => exact ⟨rfl,rfl⟩
  | set i xs ih =>
    cases b with
    | set j ys =>
      have flip (x) (inside : x ∈ xs) (y) (inside' : y ∈ ys) := ih x inside (stock.members left x inside) (stock.members right y inside')
      refine ⟨Bool.eq_iff_iff.mpr ?_,Bool.eq_iff_iff.mpr ?_⟩
      · rw [equalFrom_set_reversed,equalFrom_set]
        exact or_congr eq_comm (covered_congr fun y inside' x inside => by rw [(flip x inside y inside').2])
      · rw [equalFrom_set_reversed,equalFrom_set]
        exact or_congr eq_comm (covered_congr fun x inside y inside' => by rw [(flip x inside y inside').1])
    | _ => exact ⟨rfl,rfl⟩
  | mapping i ps ih =>
    cases b with
    | mapping j qs =>
      have flip (p) (inside : p ∈ ps) (q) (inside' : q ∈ qs) := ih p inside (stock.values left p inside) (stock.values right q inside')
      refine ⟨Bool.eq_iff_iff.mpr ?_,Bool.eq_iff_iff.mpr ?_⟩
      · rw [equalFrom_mapping,equalFrom_mapping]
        exact or_congr eq_comm (Pairs.fits_comm (stock.keyed left) (stock.keyed right) fun p inside q inside' => by
          rw [(flip p inside q inside').1])
      · rw [equalFrom_mapping,equalFrom_mapping]
        exact or_congr eq_comm (Pairs.fits_comm (stock.keyed right) (stock.keyed left) fun q inside' p inside => by
          rw [(flip p inside q inside').2])
    | _ => exact ⟨rfl,rfl⟩

theorem equal_list {i j : Identity} : equal (.list i xs) (.list j ys) = true ↔
    i = j ∨ List.Forall₂ (fun x y => equal x y = true) xs ys := equalFrom_list

theorem equal_mapping {i j : Identity} {ps qs : Pairs} : equal (.mapping i ps) (.mapping j qs) = true ↔
    i = j ∨ Pairs.Fits (fun v w => equal v w = true) ps qs := equalFrom_mapping

theorem equal_set (stock : Stock S) {i j : Identity} (left : S (.set i xs)) (right : S (.set j ys)) :
    equal (.set i xs) (.set j ys) = true ↔ i = j ∨ Covered (fun x y => equal y x = true) xs ys := by
  rw [equal,equalFrom_set]
  refine or_congr Iff.rfl (covered_congr fun x inside y inside' => ?_)
  rw [(equalFrom_reversed stock (stock.members left x inside) (stock.members right y inside')).1,equal]

/-- What equals the same is equal. -/
theorem equal_trans (stock : Stock S) (first : S a) (second : S b) (third : S c) (left : equal a b = true) (right : equal b c = true) :
    equal a c = true := by
  -- The middle value is taken apart, since members of sets are compared the other way round.
  induction b using parts_induction generalizing a c with
  | atom v atom =>
    rw [equal,equalFrom_atom_right atom] at left
    rw [equal,equalFrom_atom_left atom] at right
    rw [equal,equalFrom_atom_left ((isAtom_of_identical left).trans atom)]
    exact identical_trans left right atom
  | list j ys ih =>
    cases a with
    | list i xs =>
      cases c with
      | list k zs =>
        rcases equal_list.mp left with rfl | before
        · rwa [stock.lists first second]
        rcases equal_list.mp right with rfl | after
        · rwa [stock.lists third second]
        exact equal_list.mpr (.inr (forall₂_trans before after fun x inside y inside' z inside'' =>
          ih y inside' (stock.items first x inside) (stock.items second y inside') (stock.items third z inside'')))
      | _ => cases right
    | _ => cases left
  | set j ys ih =>
    cases a with
    | set i xs =>
      cases c with
      | set k zs =>
        rcases (equal_set stock first second).mp left with rfl | before
        · rwa [stock.sets first second]
        rcases (equal_set stock second third).mp right with rfl | after
        · rwa [stock.sets third second]
        exact (equal_set stock first third).mpr (.inr (before.trans after fun x inside y inside' z inside'' below above =>
          ih y inside' (stock.members third z inside'') (stock.members second y inside') (stock.members first x inside) above below))
      | _ => cases right
    | _ => cases left
  | mapping j qs ih =>
    cases a with
    | mapping i ps =>
      cases c with
      | mapping k rs =>
        rcases equal_mapping.mp left with rfl | before
        · rwa [stock.mappings first second]
        rcases equal_mapping.mp right with rfl | after
        · rwa [stock.mappings third second]
        exact equal_mapping.mpr (.inr (before.trans after fun p inside q inside' r inside'' =>
          ih q inside' (stock.values first p inside) (stock.values second q inside') (stock.values third r inside'')))
      | _ => cases right
    | _ => cases left

/-- What equals a member is a member. -/
theorem isIn_of_equal {items : List Value} (stock : Stock S) (listed : ∀ x ∈ items, S x) (first : S a) (second : S b)
    (member : isIn items a = true) (same : equal a b = true) : isIn items b = true := by
  obtain ⟨x,inside,found⟩ := List.any_eq_true.mp member
  exact List.any_eq_true.mpr ⟨x,inside,equal_trans stock (listed x inside) first second found same⟩

/-- Of two sets of one size that contain each other's members one way, the one with unequal members contains those of the
other. -/
theorem Covered.back (stock : Stock S) (covered : Covered (fun x y => equal y x = true) xs ys) (left : ∀ x ∈ xs, S x)
    (right : ∀ y ∈ ys, S y) (flip : ∀ x ∈ xs, ∀ y ∈ ys, equal x y = equal y x)
    (apart : xs.Pairwise fun x x' => equal x x' = false) : Covered (fun y x => equal x y = true) ys xs := by
  refine (covered_congr fun y inside' x inside => by rw [flip x inside y inside']).mp (covered.swap (apart.imp_of_mem ?_))
  intro x x' inside inside' differ y listed met met'
  have same := equal_trans stock (left x inside) (right y listed) (left x' inside') (flip x inside y listed ▸ met) met'
  rw [differ] at same
  cases same

/-- Where no set holds two members that are equal, it does not matter which value stands on the left. -/
theorem equal_comm (stock : Stock S) (apart : ∀ id xs, S (.set id xs) → xs.Pairwise fun x x' => equal x x' = false) (left : S a)
    (right : S b) : equal a b = equal b a := by
  induction a using parts_induction generalizing b with
  | atom v atom => rw [equal,equal,equalFrom_atom_left atom,equalFrom_atom_right atom,identical_comm]
  | list i xs ih =>
    cases b with
    | list j ys =>
      rw [Bool.eq_iff_iff,equal_list,equal_list]
      exact or_congr eq_comm (forall₂_comm fun x inside y inside' => by
        rw [ih x inside (stock.items left x inside) (stock.items right y inside')])
    | _ => rfl
  | set i xs ih =>
    cases b with
    | set j ys =>
      rw [Bool.eq_iff_iff,equal_set stock left right,equal_set stock right left]
      have flip (x) (inside : x ∈ xs) (y) (inside' : y ∈ ys) := ih x inside (stock.members left x inside) (stock.members right y inside')
      refine or_congr eq_comm ⟨fun covered => ?_,fun covered => ?_⟩
      · exact covered.back stock (stock.members left) (stock.members right) flip (apart i xs left)
      · exact covered.back stock (stock.members right) (stock.members left) (fun y inside' x inside => (flip x inside y inside').symm)
          (apart j ys right)
    | _ => rfl
  | mapping i ps ih =>
    cases b with
    | mapping j qs =>
      rw [Bool.eq_iff_iff,equal_mapping,equal_mapping]
      exact or_congr eq_comm (Pairs.fits_comm (stock.keyed left) (stock.keyed right) fun p inside q inside' => by
        rw [ih p inside (stock.values left p inside) (stock.values right q inside')])
    | _ => rfl

theorem forall₂_of_bareAll (same : bareAll ys = bareAll xs) (each : ∀ x ∈ xs, ∀ y, bare y = bare x → R x y) : List.Forall₂ R xs ys := by
  induction xs generalizing ys with
  | nil => cases ys with
    | nil => exact .nil
    | cons => cases same
  | cons x rest ih => cases ys with
    | nil => cases same
    | cons y rest' =>
      obtain ⟨here,later⟩ := List.cons.inj same
      exact .cons (each x List.mem_cons_self y here) (ih later fun x inside => each x (List.mem_cons_of_mem _ inside))

theorem covered_of_forall₂ (related : List.Forall₂ R xs ys) : Covered R xs ys := by
  refine ⟨related.length_eq,fun x member => ?_⟩
  obtain ⟨i,inside,rfl⟩ := List.getElem_of_mem member
  have inside' : i < ys.length := related.length_eq ▸ inside
  exact ⟨ys[i],List.getElem_mem inside',(List.forall₂_iff_get.mp related).2 i inside inside'⟩

theorem get?_barePairs (ps : Pairs) (key : Text) : Pairs.get? (barePairs ps) key = (Pairs.get? ps key).map bare := by
  induction ps with
  | nil => rfl
  | cons p rest ih =>
    obtain ⟨k,v⟩ := p
    rw [barePairs,Pairs.get?_cons,Pairs.get?_cons,ih]
    split <;> rfl

theorem fits_of_barePairs {ps qs : Pairs} (distinct : (Pairs.keys ps).Nodup) (same : barePairs qs = barePairs ps)
    (each : ∀ p ∈ ps, ∀ w, bare w = bare p.2 → R p.2 w) : Pairs.Fits R ps qs := by
  have size : qs.length = ps.length := by simpa [barePairs_eq_map] using congrArg List.length same
  refine ⟨size.symm,fun p member => ?_⟩
  have found : (Pairs.get? qs p.1).map bare = some (bare p.2) := by
    rw [← get?_barePairs,same,get?_barePairs,(Pairs.get?_eq_some_iff distinct).mpr member]
    rfl
  obtain ⟨w,present,content⟩ := Option.map_eq_some_iff.mp found
  exact ⟨w,present,each p member w content⟩

theorem bare_atom {v : Value} (atom : v.isAtom = true) : v.bare = v := by
  cases v <;> first | rfl | cases atom

theorem isAtom_bare (v : Value) : v.bare.isAtom = v.isAtom := by
  cases v <;> rfl

theorem identical_self {v : Value} (atom : v.isAtom = true) (number : ∀ n, v = .number n → n.isNaN = false) : identical v v = true := by
  cases v with
  | list | set | mapping => cases atom
  | number n => exact Number.same_self (number n rfl)
  | object o => exact Object.same_self o
  | _ => simp [identical]

/-- A value without a not-a-number equals whatever has its content. -/
theorem equalFrom_of_bare (stock : Stock S) (numbers : ∀ n, S (.number n) → n.isNaN = false) (held : S a) (copy : b.bare = a.bare)
    (reversed : Bool) : equalFrom reversed a b = true := by
  induction a using parts_induction generalizing b reversed with
  | atom v atom =>
    have same : b = v := by
      have atom' : b.isAtom = true := by rw [← isAtom_bare,copy,isAtom_bare,atom]
      rwa [bare_atom atom',bare_atom atom] at copy
    rw [equalFrom_atom_left atom,same]
    exact identical_self atom fun n number => numbers n (number ▸ held)
  | list i xs ih =>
    cases b with
    | list j ys =>
      have content : bareAll ys = bareAll xs := (Value.list.inj copy).2
      exact equalFrom_list.mpr (.inr (forall₂_of_bareAll content fun x inside y same => ih x inside (stock.items held x inside) same _))
    | _ => cases copy
  | set i xs ih =>
    cases b with
    | set j ys =>
      have content : bareAll ys = bareAll xs := (Value.set.inj copy).2
      have met (reversed : Bool) := forall₂_of_bareAll content fun x inside y same => ih x inside (stock.members held x inside) same reversed
      cases reversed with
      | false => exact equalFrom_set.mpr (.inr (covered_of_forall₂ (met true)))
      | true => exact equalFrom_set_reversed.mpr (.inr (covered_of_forall₂ (met false).flip))
    | _ => cases copy
  | mapping i ps ih =>
    cases b with
    | mapping j qs =>
      have content : barePairs qs = barePairs ps := (Value.mapping.inj copy).2
      exact equalFrom_mapping.mpr (.inr (fits_of_barePairs (stock.keyed held) content fun p inside w same =>
        ih p inside (stock.values held p inside) same _))
    | _ => cases copy

/-- Where no set holds two members that are equal, and without a not-a-number, `==` is an equivalence. -/
theorem equal_equivalence (stock : Stock S) (apart : ∀ id xs, S (.set id xs) → xs.Pairwise fun x x' => equal x x' = false)
    (numbers : ∀ n, S (.number n) → n.isNaN = false) : Equivalence fun a b : { v // S v } => equal a b = true where
  refl a := equalFrom_of_bare stock numbers a.2 rfl false
  symm {a b} same := equal_comm stock apart a.2 b.2 ▸ same
  trans {a b c} := equal_trans stock a.2 b.2 c.2

end InStock

/-! ## Sets of atoms -/

theorem identical_asMember (v w : Value) : identical v (asMember w) = identical v w := by
  unfold asMember
  split
  · cases v <;> first | rfl | exact Number.same_zero _
  · rfl

theorem isAtom_asMember (v : Value) : (asMember v).isAtom = v.isAtom := by
  unfold asMember
  split <;> rfl

theorem identical_of_not_sameMember {v w : Value} (differ : sameMember v w = false) : identical v w = false := by
  unfold sameMember at differ
  split at differ
  · exact (Bool.or_eq_false_iff.mp differ).1
  · exact differ

/-- Atoms of which no two are equal. -/
def Apart (items : List Value) : Prop := (∀ v ∈ items, v.isAtom = true) ∧ items.Pairwise fun x y => equal x y = false

theorem Apart.addMember {items : List Value} {v : Value} (apart : Apart items) (atom : v.isAtom = true) : Apart (addMember items v) := by
  unfold Value.addMember
  split
  · exact apart
  · next fresh =>
    have new (x) (member : x ∈ items) : equal x (asMember v) = false := by
      rw [equal,equalFrom_atom_left (apart.1 x member),identical_asMember]
      exact identical_of_not_sameMember (by simpa using fun same => fresh (List.any_eq_true.mpr ⟨x,member,same⟩))
    refine ⟨?_,List.pairwise_append.mpr ⟨apart.2,List.pairwise_singleton ..,fun x member y last => ?_⟩⟩
    · intro w member
      rcases List.mem_append.mp member with old | last
      · exact apart.1 w old
      · rw [List.mem_singleton.mp last,isAtom_asMember,atom]
    · rw [List.mem_singleton.mp last]
      exact new x member

/-- No two members are equal in a set that is made of scalars and objects. -/
theorem members_apart {items : List Value} (atoms : ∀ v ∈ items, v.isAtom = true) :
    (members items).Pairwise fun x y => equal x y = false := by
  suffices from_any : ∀ seen, Apart seen → Apart (items.foldl addMember seen) from (from_any [] ⟨nofun,.nil⟩).2
  induction items with
  | nil => exact fun _ apart => apart
  | cons v rest ih =>
    obtain ⟨here,there⟩ := List.forall_mem_cons.mp atoms
    exact fun seen apart => ih there _ (apart.addMember here)

/-- One of two sets contains the members of the other one and is as large, and has a member that the other one lacks. -/
example : equal (.set 0 [.list 1 [.null],.list 2 [.null]]) (.set 3 [.list 4 [.null],.list 5 []]) = true ∧
    equal (.set 3 [.list 4 [.null],.list 5 []]) (.set 0 [.list 1 [.null],.list 2 [.null]]) = false := by decide

end Value
end ConfTree
