import ConfTree.Proofs.Arithmetic
import ConfTree.Proofs.Equality

/-!
# Ordering and equality

Numbers are ordered by the sign of their difference, and a difference of two finite numbers that are not equal is never rounded
to zero. So numbers are ordered as their levels are, the infinities at the ends (`order_level`); only an infinity and itself
have no difference that is a number, so they are not ordered although they are equal (`compare_infinity`). Apart from those and
from not-a-number, two numbers or two texts stand in exactly one order, and each comparison and equality is read from it
(`Comparable.read`).
-/
namespace ConfTree

/-! ## The order of numbers -/

namespace Number

variable {x y : Number} {a b : Int}

/-- The count of steps, the infinities at the ends. -/
def level : Number → Int
  | .nan | .negZero => 0
  | .infinite negative => if negative then -(stepLimit : Int) else stepLimit
  | .finite k _ => k

theorem level_of_steps? (finite : x.steps? = some a) : x.level = a := by
  rcases eq_finite finite with ⟨fits,rfl⟩ | ⟨rfl,rfl⟩ <;> rfl

/-! The infinities are beyond all finite numbers. -/

theorem level_infinite : (infinite true).level < (infinite false).level := by
  have positive := stepLimit_pos
  show -(stepLimit : Int) < stepLimit
  omega

theorem low_level (finite : x.steps? = some a) : (infinite true).level < x.level := by
  have inside := (representable_of_steps? finite).2
  rw [level_of_steps? finite]
  show -(stepLimit : Int) < a
  omega

theorem level_high (finite : x.steps? = some a) : x.level < (infinite false).level := by
  have inside := (representable_of_steps? finite).2
  rw [level_of_steps? finite]
  show a < stepLimit
  omega

/-- A number is finite, an infinity, or none. -/
theorem finite_or_infinite (number : x.isNaN = false) : (∃ a, x.steps? = some a) ∨ ∃ negative, x = infinite negative := by
  cases x with
  | nan => cases number
  | infinite negative => exact .inr ⟨negative,rfl⟩
  | negZero => exact .inl ⟨0,rfl⟩
  | finite k fits => exact .inl ⟨k,rfl⟩

theorem steps?_neg (finite : x.steps? = some a) : x.neg.steps? = some (-a) := by
  rcases eq_finite finite with ⟨fits,rfl⟩ | ⟨rfl,rfl⟩
  · by_cases vanishes : a = 0
    · rw [neg,if_pos vanishes,vanishes]
      rfl
    · have opposite : Representable (-a) := by rwa [Representable,Int.natAbs_neg]
      rw [neg,if_neg vanishes,steps?_ofSteps,nearest_exact opposite,if_pos opposite.2]
  · rfl

/-- A rounded count is ordered against zero as the count is. -/
theorem ofSteps_sign (k : Int) : (ofSteps k).isNaN = false ∧ ((ofSteps k).isZero = true ↔ k = 0) ∧
    (k ≠ 0 → ((ofSteps k).isNegative = true ↔ k < 0)) := by
  unfold ofSteps
  refine ⟨ofRatio_isNaN ..,?_,?_⟩
  · rw [ofRatio_isZero,beq_iff_eq,roundSteps_eq_zero]
    omega
  · intro nonzero
    have remains : roundSteps k.natAbs 1 ≠ 0 := mt roundSteps_eq_zero.mp (by omega)
    rw [ofRatio_isNegative remains,decide_eq_true_eq]

/-- Finite numbers are ordered as their counts are. -/
theorem order_finite (left : x.steps? = some a) (right : y.steps? = some b) : x.order y = some (compare a b) := by
  have difference : x.sub y = ofSteps (a - b) ∨ a - b = 0 ∧ x.sub y = negZero := add_ofSteps left (steps?_neg right)
  unfold order
  rcases difference with rounded | ⟨none,zero⟩
  · obtain ⟨number,zero,negative⟩ := ofSteps_sign (a - b)
    rw [rounded]
    rcases Int.lt_trichotomy a b with below | same | above
    · simp [number,mt zero.mp (by omega),(negative (by omega)).mpr (by omega),Int.compare_eq_lt.mpr below]
    · simp [number,zero.mpr (by omega),Int.compare_eq_eq.mpr same]
    · simp [number,mt zero.mp (by omega),mt (negative (by omega)).mp (by omega),Int.compare_eq_gt.mpr above]
  · rw [zero,show a = b by omega]
    simp [isNaN,isZero]

theorem sub_infinite (finite : x.steps? = some a) (negative : Bool) : x.sub (infinite negative) = infinite !negative := by
  rcases eq_finite finite with ⟨fits,rfl⟩ | ⟨rfl,rfl⟩ <;> rfl

theorem infinite_sub (negative : Bool) (finite : y.steps? = some b) : (infinite negative).sub y = infinite negative := by
  rw [sub]
  rcases eq_finite (steps?_neg finite) with ⟨fits,opposite⟩ | ⟨_,opposite⟩ <;> rw [opposite] <;> rfl

theorem infinite_sub_infinite {n m : Bool} (differ : n ≠ m) : (infinite n).sub (infinite m) = infinite n := by
  cases n <;> cases m <;> first | rfl | exact absurd rfl differ

theorem order_of_infinite {negative : Bool} (difference : x.sub y = infinite negative) :
    x.order y = some (if negative then .lt else .gt) := by
  rw [order,difference]
  cases negative <;> rfl

/-- Numbers are ordered as their levels are, an infinity and itself apart. -/
theorem order_level (left : x.isNaN = false) (right : y.isNaN = false) (apart : x.isFinite = true ∨ x ≠ y) :
    x.order y = some (compare x.level y.level) := by
  rcases finite_or_infinite left with ⟨a,here⟩ | ⟨n,rfl⟩
  · rcases finite_or_infinite right with ⟨b,there⟩ | ⟨m,rfl⟩
    · rw [level_of_steps? here,level_of_steps? there]
      exact order_finite here there
    · rw [order_of_infinite (sub_infinite here m)]
      cases m with
      | true => rw [Int.compare_eq_gt.mpr (low_level here)]; rfl
      | false => rw [Int.compare_eq_lt.mpr (level_high here)]; rfl
  · rcases finite_or_infinite right with ⟨b,there⟩ | ⟨m,rfl⟩
    · rw [order_of_infinite (infinite_sub n there)]
      cases n with
      | true => rw [Int.compare_eq_lt.mpr (low_level there)]; rfl
      | false => rw [Int.compare_eq_gt.mpr (level_high there)]; rfl
    · have differ : n ≠ m := by
        rcases apart with finite | differ
        · cases finite
        · exact fun same => differ (congrArg infinite same)
      rw [order_of_infinite (infinite_sub_infinite differ)]
      cases n <;> cases m
      · exact absurd rfl differ
      · rw [Int.compare_eq_gt.mpr level_infinite]; rfl
      · rw [Int.compare_eq_lt.mpr level_infinite]; rfl
      · exact absurd rfl differ

/-- An infinity and itself have no order. -/
theorem order_infinity (negative : Bool) : (infinite negative).order (infinite negative) = none := by
  cases negative <;> rfl

theorem order_nan (number : x.isNaN = true ∨ y.isNaN = true) : x.order y = none := by
  have difference : x.sub y = nan := by
    rcases number with none | none
    · cases x with
      | nan => rfl
      | _ => cases none
    · cases y with
      | nan => cases x <;> rfl
      | _ => cases none
  rw [order,difference]
  rfl

/-- A number is less just where its level is. -/
theorem order_lt_iff : x.order y = some .lt ↔ x.isNaN = false ∧ y.isNaN = false ∧ x.level < y.level := by
  constructor
  · intro less
    by_cases none : x.isNaN = true ∨ y.isNaN = true
    · rw [order_nan none] at less
      cases less
    rw [not_or,Bool.not_eq_true,Bool.not_eq_true] at none
    by_cases apart : x.isFinite = true ∨ x ≠ y
    · rw [order_level none.1 none.2 apart] at less
      exact ⟨none.1,none.2,Int.compare_eq_lt.mp (Option.some.inj less)⟩
    · rw [not_or,not_not] at apart
      obtain ⟨_,rfl⟩ := apart
      obtain ⟨a,here⟩ | ⟨negative,rfl⟩ := finite_or_infinite none.1
      · rw [order_finite here here] at less
        simp at less
      · rw [order_infinity] at less
        cases less
  · rintro ⟨left,right,below⟩
    have differ : x ≠ y := by
      rintro rfl
      exact Int.lt_irrefl _ below
    rw [order_level left right (.inr differ),Int.compare_eq_lt.mpr below]

/-- Numbers are equal that are of one level. -/
theorem same_level (left : x.isNaN = false) (right : y.isNaN = false) : x.same y = true ↔ x.level = y.level := by
  have infinite_apart {z : Number} {c : Int} (finite : z.steps? = some c) (n : Bool) :
      z.same (infinite n) = false ∧ z.level ≠ (infinite n).level := by
    constructor
    · rcases eq_finite finite with ⟨fits,rfl⟩ | ⟨rfl,rfl⟩ <;> rfl
    · cases n with
      | true => exact Int.ne_of_gt (low_level finite)
      | false => exact Int.ne_of_lt (level_high finite)
  rcases finite_or_infinite left with ⟨a,here⟩ | ⟨n,rfl⟩
  · rcases finite_or_infinite right with ⟨b,there⟩ | ⟨m,rfl⟩
    · rw [level_of_steps? here,level_of_steps? there]
      rcases eq_finite here with ⟨_,rfl⟩ | ⟨rfl,rfl⟩ <;> rcases eq_finite there with ⟨_,rfl⟩ | ⟨rfl,rfl⟩ <;> simp [same,steps?]
    · obtain ⟨differ,apart⟩ := infinite_apart here m
      simp [differ,apart]
  · rcases finite_or_infinite right with ⟨b,there⟩ | ⟨m,rfl⟩
    · obtain ⟨differ,apart⟩ := infinite_apart there n
      rw [same_comm]
      simp [differ,apart.symm]
    · cases n <;> cases m
      · exact iff_of_true rfl rfl
      · exact iff_of_false Bool.false_ne_true (Int.ne_of_gt level_infinite)
      · exact iff_of_false Bool.false_ne_true (Int.ne_of_lt level_infinite)
      · exact iff_of_true rfl rfl

end Number

/-! ## The order of texts -/

namespace Operators

variable {a b c : Value} {s t : Text} {x y : Number} {op : CompareOp} {o : Ordering}

theorem textOrder_lt : textOrder s t = .lt ↔ s < t := by
  unfold textOrder
  by_cases below : s < t
  · simp [below]
  · by_cases above : t < s <;> simp [below,above]

/-- Neither of two texts is below the other just if they are one. -/
theorem textOrder_eq : textOrder s t = .eq ↔ s = t := by
  unfold textOrder
  constructor
  · intro level
    split at level
    · cases level
    · next below =>
      split at level
      · cases level
      · next above =>
        have same : s.units = t.units := List.le_antisymm (List.not_lt.mp above) (List.not_lt.mp below)
        cases s
        cases t
        exact congrArg Text.mk same
  · rintro rfl
    have level : ¬ s < s := List.lt_irrefl s.units
    rw [if_neg level,if_neg level]

theorem textOrder_swap (s t : Text) : textOrder t s = (textOrder s t).swap := by
  unfold textOrder
  by_cases below : s < t
  · have above : ¬ t < s := List.lt_asymm (show s.units < t.units from below)
    simp [below,above]
  · by_cases above : t < s <;> simp [below,above]

/-! ## Comparable values -/

/-- Two texts, or two numbers of which neither is a not-a-number and that are not one and the same infinity. -/
inductive Comparable : Value → Value → Prop where
  | texts (s t : Text) : Comparable (.text s) (.text t)
  | numbers {x y : Number} (left : x.isNaN = false) (right : y.isNaN = false) (apart : x.isFinite = true ∨ x ≠ y) :
      Comparable (.number x) (.number y)

/-- Whether a comparison or equality holds of two values that stand in an order. -/
def reads (o : Ordering) : CompareOp → Bool
  | .equal => o == .eq
  | .notEqual => o != .eq
  | .less => o == .lt
  | .lessEqual => o.isLE
  | .greater => o == .gt
  | .greaterEqual => o.isGE
  | .member => false

/-- Values that stand in an order, and that are equal if it is that of equal values. -/
structure Stand (a b : Value) (o : Ordering) : Prop where
  ordered : ∀ sign, order? sign a b = .ok (some o)
  equal : Value.equal a b = (o == .eq)

theorem Stand.compare (stand : Stand a b o) (op : CompareOp) (comparison : op ≠ .member) : compare op a b = .ok (reads o op) := by
  cases op with
  | member => exact absurd rfl comparison
  | equal | notEqual => simp only [Operators.compare,stand.equal,reads,bne]
  | _ =>
    simp only [Operators.compare,stand.ordered]
    rfl

theorem stand_texts (s t : Text) : Stand (.text s) (.text t) (textOrder s t) where
  ordered _ := rfl
  equal := by
    show (s == t) = _
    rw [Bool.eq_iff_iff,beq_iff_eq,beq_iff_eq,textOrder_eq]

theorem stand_numbers (left : x.isNaN = false) (right : y.isNaN = false) (apart : x.isFinite = true ∨ x ≠ y) :
    Stand (.number x) (.number y) (Ord.compare x.level y.level) where
  ordered _ := congrArg Except.ok (Number.order_level left right apart)
  equal := by
    show x.same y = _
    rw [Bool.eq_iff_iff,beq_iff_eq,Number.same_level left right,Int.compare_eq_eq]

/-- Comparable values stand in one order, and the other way round in the opposite one. -/
theorem Comparable.stand (pair : Comparable a b) : ∃ o, Stand a b o ∧ Stand b a o.swap := by
  cases pair with
  | texts s t =>
    refine ⟨textOrder s t,stand_texts s t,?_⟩
    rw [← textOrder_swap]
    exact stand_texts t s
  | @numbers x y left right apart =>
    refine ⟨Ord.compare x.level y.level,stand_numbers left right apart,?_⟩
    rw [Int.compare_swap]
    refine stand_numbers right left ?_
    by_cases same : x = y
    · subst same
      simpa using apart
    · exact .inr (Ne.symm same)

/-- Each comparison and equality of two comparable values, either way round, is read from one order. -/
theorem Comparable.read (pair : Comparable a b) : ∃ o : Ordering, ∀ op, op ≠ .member →
    compare op a b = .ok (reads o op) ∧ compare op b a = .ok (reads o.swap op) := by
  obtain ⟨o,stand,opposite⟩ := pair.stand
  exact ⟨o,fun op comparison => ⟨stand.compare op comparison,opposite.compare op comparison⟩⟩

/-- What says that two values stand in an order. -/
def saying : Ordering → CompareOp
  | .lt => .less
  | .eq => .equal
  | .gt => .greater

/-- Of two comparable values exactly one holds: the first is less, they are equal, or it is greater. -/
theorem Comparable.trichotomy (pair : Comparable a b) : ∃ o, ∀ other, compare (saying other) a b = .ok (other == o) := by
  obtain ⟨o,stand,_⟩ := pair.stand
  refine ⟨o,?_⟩
  intro other
  rw [stand.compare (saying other) (by cases other <;> nofun)]
  cases o <;> cases other <;> rfl

theorem Comparable.lessEqual_iff (pair : Comparable a b) :
    compare .lessEqual a b = .ok true ↔ compare .less a b = .ok true ∨ compare .equal a b = .ok true := by
  obtain ⟨o,stand,_⟩ := pair.stand
  rw [stand.compare .lessEqual nofun,stand.compare .less nofun,stand.compare .equal nofun]
  cases o <;> simp [reads]

theorem Comparable.greaterEqual_iff (pair : Comparable a b) :
    compare .greaterEqual a b = .ok true ↔ compare .greater a b = .ok true ∨ compare .equal a b = .ok true := by
  obtain ⟨o,stand,_⟩ := pair.stand
  rw [stand.compare .greaterEqual nofun,stand.compare .greater nofun,stand.compare .equal nofun]
  cases o <;> simp [reads]

/-- An infinity equals itself, and no comparison holds of it and itself. -/
theorem compare_infinity (negative : Bool) (comparison : op ≠ .member) :
    compare op (.number (.infinite negative)) (.number (.infinite negative)) = .ok (op == .equal) := by
  have none (sign : Text) : order? sign (.number (.infinite negative)) (.number (.infinite negative)) = .ok none :=
    congrArg Except.ok (Number.order_infinity negative)
  have same : Value.equal (.number (.infinite negative)) (.number (.infinite negative)) = true :=
    Number.same_self (x := .infinite negative) rfl
  cases op with
  | member => exact absurd rfl comparison
  | equal | notEqual => simp [compare,same]
  | _ =>
    simp only [compare,none]
    rfl

/-! ## Being less -/

theorem less_iff : compare .less a b = .ok true ↔ order? CompareOp.less.sign a b = .ok (some .lt) := by
  rw [compare]
  rcases order? CompareOp.less.sign a b with issue | o
  · exact iff_of_false nofun nofun
  · show Except.ok (o == some .lt) = .ok true ↔ _
    simp

/-- What is less than a lesser value is less. -/
theorem less_trans (first : compare .less a b = .ok true) (second : compare .less b c = .ok true) : compare .less a c = .ok true := by
  rw [less_iff] at *
  cases a with
  | number x =>
    cases b with
    | number y =>
      cases c with
      | number z =>
        obtain ⟨left,_,below⟩ := Number.order_lt_iff.mp (Except.ok.inj first)
        obtain ⟨_,right,above⟩ := Number.order_lt_iff.mp (Except.ok.inj second)
        exact congrArg Except.ok (Number.order_lt_iff.mpr ⟨left,right,Int.lt_trans below above⟩)
      | _ => cases second
    | _ => cases first
  | text s =>
    cases b with
    | text t =>
      cases c with
      | text u =>
        have below := textOrder_lt.mp (Option.some.inj (Except.ok.inj first))
        have above := textOrder_lt.mp (Option.some.inj (Except.ok.inj second))
        have less : s < u := List.lt_trans (show s.units < t.units from below) above
        exact congrArg (fun o => Except.ok (some o)) (textOrder_lt.mpr less)
      | _ => cases second
    | _ => cases first
  | _ => cases first

end Operators
end ConfTree
