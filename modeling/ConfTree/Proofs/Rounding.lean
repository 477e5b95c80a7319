import Mathlib.Algebra.Group.Nat.Defs
import ConfTree.Number.Basic

/-!
# Rounding

Rounding keeps the order of counts and leaves a count of 53 significant bits as it is. So whole
numbers below `2 ^ 53` are numbers as they stand, and a greater whole number never compares as less.
-/
namespace ConfTree

/-! ## Quotients -/

theorem div_le_roundQuotient (n c : Nat) : n / c ≤ roundQuotient n c := by
  unfold roundQuotient
  split
  · exact Nat.le_refl _
  · split <;> omega

theorem roundQuotient_mono {m n : Nat} (h : m ≤ n) (c : Nat) : roundQuotient m c ≤ roundQuotient n c := by
  rcases Nat.lt_or_eq_of_le (Nat.div_le_div_right (c := c) h) with lt | eq
  · exact Nat.le_trans (roundQuotient_le m c) (Nat.le_trans lt (div_le_roundQuotient n c))
  · have hm := Nat.div_add_mod m c
    have hn := Nat.div_add_mod n c
    unfold roundQuotient
    rw [eq] at hm ⊢
    split <;> split <;> (try split) <;> (try split) <;> omega

theorem roundQuotient_of_dvd {n c : Nat} (hc : 0 < c) (h : c ∣ n) : roundQuotient n c = n / c := by
  unfold roundQuotient
  rw [Nat.mod_eq_zero_of_dvd h,if_pos (by omega)]

/-! ## Counts of steps -/

theorem roundSteps_one (n : Nat) :
    roundSteps n 1 = roundQuotient n (2 ^ excessBits n) * 2 ^ excessBits n := by
  simp [roundSteps]

theorem excessBits_mono {m n : Nat} (h : m ≤ n) : excessBits m ≤ excessBits n := by
  have : m.log2 ≤ n.log2 := by
    by_cases hm : m = 0
    · rw [hm,Nat.log2_zero]
      exact Nat.zero_le _
    · exact (Nat.le_log2 (by omega)).mpr (Nat.le_trans (Nat.log2_self_le hm) h)
  unfold excessBits
  omega

/-- A count with bits to drop keeps 53 of them. -/
theorem le_div_of_excessBits {n : Nat} (h : 0 < excessBits n) : 2 ^ 52 ≤ n / 2 ^ excessBits n := by
  have hn : n ≠ 0 := by
    rintro rfl
    exact absurd h (by decide)
  rw [Nat.le_div_iff_mul_le (Nat.two_pow_pos _),← Nat.pow_add]
  refine Nat.le_trans (Nat.pow_le_pow_right (by decide) ?_) (Nat.log2_self_le hn)
  unfold excessBits at h ⊢
  omega

theorem roundSteps_le (n : Nat) : roundSteps n 1 ≤ 2 ^ 53 * 2 ^ excessBits n := by
  rw [roundSteps_one]
  refine Nat.mul_le_mul_right _ (Nat.le_trans (roundQuotient_le n _) ?_)
  have := div_excessBits_lt n
  simp only [Nat.pow_eq] at this
  omega

theorem roundSteps_mono {m n : Nat} (h : m ≤ n) : roundSteps m 1 ≤ roundSteps n 1 := by
  rcases Nat.lt_or_eq_of_le (excessBits_mono h) with lt | eq
  · calc roundSteps m 1
      _ ≤ 2 ^ 53 * 2 ^ excessBits m := roundSteps_le m
      _ = 2 ^ 52 * 2 ^ (excessBits m + 1) := by rw [Nat.pow_succ 2 (excessBits m)]; omega
      _ ≤ 2 ^ 52 * 2 ^ excessBits n := Nat.mul_le_mul_left _ (Nat.pow_le_pow_right (by decide) lt)
      _ ≤ roundQuotient n (2 ^ excessBits n) * 2 ^ excessBits n :=
        Nat.mul_le_mul_right _ (Nat.le_trans (le_div_of_excessBits (by omega)) (div_le_roundQuotient ..))
      _ = roundSteps n 1 := (roundSteps_one n).symm
  · rw [roundSteps_one,roundSteps_one,eq]
    exact Nat.mul_le_mul_right _ (roundQuotient_mono h _)

/-- A count of 53 significant bits stays as it is. -/
theorem roundSteps_exact {n s : Nat} (hs : 2 ^ s ∣ n) (hn : n ≤ 2 ^ 53 * 2 ^ s) : roundSteps n 1 = n := by
  have dvd : 2 ^ excessBits n ∣ n := by
    rw [← Nat.pow_add] at hn
    rcases Nat.lt_or_eq_of_le hn with lt | rfl
    · by_cases h0 : n = 0
      · rw [h0]
        exact Nat.dvd_zero _
      · have := (Nat.log2_lt h0).mpr lt
        exact Nat.dvd_trans (Nat.pow_dvd_pow 2 (by unfold excessBits; omega)) hs
    · exact Nat.pow_dvd_pow 2 (by unfold excessBits; rw [Nat.log2_two_pow]; omega)
  rw [roundSteps_one,roundQuotient_of_dvd (Nat.two_pow_pos _) dvd,Nat.div_mul_cancel dvd]

theorem roundSteps_eq_zero {n : Nat} : roundSteps n 1 = 0 ↔ n = 0 := by
  constructor
  · intro h
    have := roundSteps_mono (m := 1) (n := n)
    have one : roundSteps 1 1 = 1 := roundSteps_exact (s := 0) (by simp) (by decide)
    omega
  · rintro rfl
    rfl

/-! ## Numbers -/

namespace Number

theorem ofRatio_isNaN (negative : Bool) (n d : Nat) : (ofRatio negative n d).isNaN = false := by
  unfold ofRatio
  split
  · cases negative <;> rfl
  · split <;> rfl

theorem ofRatio_isZero (negative : Bool) (n d : Nat) : (ofRatio negative n d).isZero = (roundSteps n d == 0) := by
  unfold ofRatio
  split
  · next h => cases negative <;> simp [h,signedZero,isZero,zero]
  · next h =>
    split
    · have steps : (roundSteps n d : Int) ≠ 0 := by omega
      have negated : -(roundSteps n d : Int) ≠ 0 := by omega
      cases negative <;> simp [isZero,h,beq_eq_false_iff_ne.mpr steps,beq_eq_false_iff_ne.mpr negated]
    · simp [isZero,h]

theorem ofRatio_isNegative {n d : Nat} (h : roundSteps n d ≠ 0) (negative : Bool) :
    (ofRatio negative n d).isNegative = negative := by
  unfold ofRatio
  rw [if_neg h]
  split
  · cases negative with
    | false => simp [isNegative]
    | true =>
      simp [isNegative]
      omega
  · rfl

/-- A count of 53 significant bits below the limit is a number as it stands. -/
theorem ofSteps_exact {k : Int} (h : Representable k) (hk : k ≠ 0) : ofSteps k = .finite k h := by
  obtain ⟨⟨s,hs,hn⟩,hlt⟩ := h
  have exact : roundSteps k.natAbs 1 = k.natAbs := roundSteps_exact hs hn
  unfold ofSteps ofRatio
  rw [if_neg (by omega),dif_pos (by omega)]
  congr 1
  rw [exact]
  by_cases hneg : k < 0
  · simp only [hneg,decide_true,if_true]
    omega
  · simp only [hneg,decide_false,Bool.false_eq_true,if_false]
    omega

theorem order_gt (x y : Number) : x.order y = some .gt ↔
    (x.sub y).isNaN = false ∧ (x.sub y).isZero = false ∧ (x.sub y).isNegative = false := by
  simp only [order]
  cases (x.sub y).isNaN <;> cases (x.sub y).isZero <;> cases (x.sub y).isNegative <;> simp

theorem ofSteps_positive (k : Int) :
    ((ofSteps k).isNaN = false ∧ (ofSteps k).isZero = false ∧ (ofSteps k).isNegative = false) ↔ 0 < k := by
  unfold ofSteps
  rw [ofRatio_isNaN,ofRatio_isZero]
  by_cases h0 : roundSteps k.natAbs 1 = 0
  · have := roundSteps_eq_zero.mp h0
    simp [h0]
    omega
  · have := mt roundSteps_eq_zero.mpr h0
    rw [ofRatio_isNegative h0]
    simp [h0]
    omega

/-- The count that a whole number is rounded to. -/
def wholeSteps (n : Nat) : Nat := roundSteps (n * stepsPerOne) 1

theorem wholeSteps_mono {m n : Nat} (h : m ≤ n) : wholeSteps m ≤ wholeSteps n :=
  roundSteps_mono (Nat.mul_le_mul_right _ h)

theorem ofNat_eq (n : Nat) : ofNat n = ofRatio false (n * stepsPerOne) 1 := by
  have neg : ¬ (n : Int) * (stepsPerOne : Int) < 0 := by
    rw [← Int.natCast_mul]
    exact Int.not_lt.mpr (Int.natCast_nonneg _)
  have abs : ((n : Int) * (stepsPerOne : Int)).natAbs = n * stepsPerOne := by
    rw [← Int.natCast_mul]
    exact Int.natAbs_natCast _
  unfold ofNat ofInt ofSteps
  rw [abs]
  simp only [neg,decide_false]

theorem ofNat_cases (n : Nat) :
    (∃ h, ofNat n = .finite (wholeSteps n) h) ∨ stepLimit ≤ wholeSteps n ∧ ofNat n = .infinite false := by
  rw [ofNat_eq]
  unfold ofRatio wholeSteps
  split
  · next h => exact .inl ⟨by rw [h]; exact representable_zero,by simp only [h]; rfl⟩
  · split
    · next h => exact .inl ⟨representable_round h false,rfl⟩
    · next h => exact .inr ⟨by omega,rfl⟩

/-- When a whole number compares as greater. -/
theorem order_ofNat (n : Nat) (limit : Number) : (ofNat n).order limit = some .gt ↔ match limit with
    | .nan => False
    | .infinite negative => negative = true
    | .negZero => 0 < wholeSteps n
    | .finite k _ => k < wholeSteps n := by
  rw [order_gt]
  have hlim := stepLimit_pos
  rcases ofNat_cases n with ⟨h,e⟩ | ⟨h,e⟩ <;> rw [e]
  · cases limit with
    | nan => simp [sub,neg,add,isNaN]
    | infinite negative => cases negative <;> simp [sub,neg,add,isNaN,isZero,isNegative]
    | negZero =>
      have : (Number.finite (wholeSteps n) h).sub .negZero = ofSteps (wholeSteps n + 0) := rfl
      rw [this,ofSteps_positive]
      simp
    | finite k hk =>
      by_cases h0 : k = 0
      · subst h0
        have : (Number.finite (wholeSteps n) h).sub (.finite 0 hk) = .finite (wholeSteps n) h := rfl
        rw [this]
        simp only [isNaN,isZero,isNegative,beq_eq_false_iff_ne,decide_eq_false_iff_not,true_and]
        omega
      · have neg_eq : (Number.finite k hk).neg = ofSteps (-k) := by simp [neg,h0]
        have hk' : Representable (-k) := by simpa [Representable] using hk
        have : (Number.finite (wholeSteps n) h).sub (.finite k hk) = ofSteps (wholeSteps n + -k) := by
          rw [sub,neg_eq,ofSteps_exact hk' (by omega)]
          rfl
        rw [this,ofSteps_positive]
        omega
  · cases limit with
    | nan => simp [sub,neg,add,isNaN]
    | infinite negative => cases negative <;> simp [sub,neg,add,isNaN,isZero,isNegative]
    | negZero =>
      have : (Number.infinite false).sub .negZero = .infinite false := rfl
      rw [this]
      simp [isNaN,isZero,isNegative]
      omega
    | finite k hk =>
      have : (Number.infinite false).sub (.finite k hk) = .infinite false := by
        by_cases h0 : k = 0
        · subst h0
          rfl
        · have hk' : Representable (-k) := by simpa [Representable] using hk
          rw [sub,show (Number.finite k hk).neg = ofSteps (-k) by simp [neg,h0],ofSteps_exact hk' (by omega)]
          rfl
      have := hk.2
      rw [‹(Number.infinite false).sub _ = _›]
      simp [isNaN,isZero,isNegative]
      omega

/-- A greater whole number does not compare as less. -/
theorem order_ofNat_mono {m n : Nat} (h : m ≤ n) {limit : Number} (hm : (ofNat m).order limit = some .gt) :
    (ofNat n).order limit = some .gt := by
  rw [order_ofNat] at hm ⊢
  have := wholeSteps_mono h
  cases limit with
  | nan => exact hm
  | infinite => exact hm
  | negZero => simp only at hm ⊢; omega
  | finite => simp only at hm ⊢; omega

/-- One and the limit are powers of two of steps, 53 bits apart at least. -/
theorem exists_powers : ∃ s l, stepsPerOne = 2 ^ s ∧ stepLimit = 2 ^ l ∧ 53 + s ≤ l := by
  have apart : 53 + 1074 ≤ limitExponent := by decide
  revert apart
  unfold stepsPerOne stepLimit
  generalize 1074 = s
  generalize limitExponent = l
  exact fun h => ⟨s,l,Nat.pow_eq,Nat.pow_eq,h⟩

theorem wholeSteps_exact {n : Nat} (h : n < 2 ^ 53) : wholeSteps n = n * stepsPerOne := by
  obtain ⟨s,-,hs,-⟩ := exists_powers
  unfold wholeSteps
  rw [hs]
  exact roundSteps_exact (Nat.dvd_mul_left ..) (Nat.mul_le_mul_right _ (Nat.le_of_lt h))

/-- A whole number below `2 ^ 53` has its own count of steps. -/
theorem ofNat_exact {n : Nat} (h : n < 2 ^ 53) : ∃ fits, ofNat n = .finite (n * stepsPerOne : Nat) fits := by
  have exact := wholeSteps_exact h
  obtain ⟨s,l,hs,hl,le⟩ := exists_powers
  have below : wholeSteps n < stepLimit := by
    rw [exact,hs,hl]
    calc n * 2 ^ s
      _ < 2 ^ 53 * 2 ^ s := Nat.mul_lt_mul_of_pos_right h (Nat.two_pow_pos s)
      _ = 2 ^ (53 + s) := (Nat.pow_add ..).symm
      _ ≤ 2 ^ l := Nat.pow_le_pow_right (by decide) le
  rcases ofNat_cases n with found | ⟨limit,-⟩
  · rwa [exact] at found
  · omega

theorem stepsPerOne_pos : 0 < stepsPerOne := by
  obtain ⟨s,-,hs,-⟩ := exists_powers
  exact hs ▸ Nat.two_pow_pos s

/-- A whole number below `2 ^ 53` is the integer that its number is. -/
theorem int?_ofNat {n : Nat} (h : n < 2 ^ 53) : (ofNat n).int? = some (n : Int) := by
  obtain ⟨fits,e⟩ := ofNat_exact h
  have pos : (stepsPerOne : Int) ≠ 0 := Int.natCast_ne_zero.mpr (Nat.ne_of_gt stepsPerOne_pos)
  rw [e]
  simp only [int?,steps?]
  rw [Int.natCast_mul,Int.mul_emod_left,if_pos rfl,Int.mul_ediv_cancel _ pos]

end Number

end ConfTree
