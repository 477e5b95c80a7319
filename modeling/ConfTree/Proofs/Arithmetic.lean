import Mathlib.Algebra.Group.Int.Defs
import ConfTree.Proofs.Rounding

/-!
# Sums and remainders

A sum is the number nearest to the exact sum, so it is the exact sum wherever that is a number, and it keeps the order of
what is summed. A remainder is always a number. The whole numbers up to `2 ^ 53` are numbers; beyond, up to `2 ^ 54`, the
even ones are.
-/
namespace ConfTree

/-! ## The nearest count -/

/-- A count of steps that 53 significant bits write. -/
def Significant (n : Nat) : Prop := ∃ s : Nat, Nat.pow 2 s ∣ n ∧ n ≤ Nat.pow 2 53 * Nat.pow 2 s

/-- What is written with 53 bits is a multiple of the last bit that it has room for. -/
theorem Significant.dvd {n u : Nat} (significant : Significant n) (large : 2 ^ 52 * 2 ^ u ≤ n) : 2 ^ u ∣ n := by
  obtain ⟨s,divides,few⟩ := significant
  by_cases coarse : u ≤ s
  · exact Nat.dvd_trans (Nat.pow_dvd_pow 2 coarse) divides
  · -- Only the power of two with one bit more is written with a finer last bit.
    have bound : 2 ^ 53 * 2 ^ s ≤ 2 ^ 52 * 2 ^ u := by
      rw [show 2 ^ 53 * 2 ^ s = 2 ^ 52 * 2 ^ (s + 1) by rw [Nat.pow_succ]; omega]
      exact Nat.mul_le_mul_left _ (Nat.pow_le_pow_right (by decide) (by omega))
    rw [Nat.le_antisymm (Nat.le_trans few bound) large]
    exact Nat.dvd_mul_left ..

/-- No multiple of the divisor is closer than that of the rounded quotient. -/
theorem roundQuotient_nearest {c : Nat} (positive : 0 < c) (n m : Nat) :
    ((roundQuotient n c * c : Nat) - n : Int).natAbs ≤ ((m * c : Nat) - n : Int).natAbs := by
  have split := Nat.div_add_mod' n c
  have rest := Nat.mod_lt n positive
  have upper : (n / c + 1) * c = n / c * c + c := Nat.succ_mul ..
  have apart : m * c ≤ n / c * c ∨ n / c * c + c ≤ m * c := by
    rcases Nat.lt_or_ge (n / c) m with above | below
    · exact .inr (upper ▸ Nat.mul_le_mul_right c above)
    · exact .inl (Nat.mul_le_mul_right c below)
  have chosen : roundQuotient n c * c = n / c * c ∧ 2 * (n % c) ≤ c ∨ roundQuotient n c * c = n / c * c + c ∧ c ≤ 2 * (n % c) := by
    unfold roundQuotient
    by_cases low : 2 * (n % c) < c
    · rw [if_pos low]
      exact .inl ⟨rfl,by omega⟩
    rw [if_neg low]
    by_cases high : c < 2 * (n % c)
    · rw [if_pos high]
      exact .inr ⟨upper,by omega⟩
    rw [if_neg high]
    rcases Nat.mod_two_eq_zero_or_one (n / c) with even | odd
    · rw [even]
      exact .inl ⟨rfl,by omega⟩
    · rw [odd]
      exact .inr ⟨upper,by omega⟩
  omega

/-- No count of 53 bits is closer than the rounded one. -/
theorem roundSteps_nearest (n : Nat) {g : Nat} (significant : Significant g) :
    ((roundSteps n 1 : Int) - n).natAbs ≤ ((g : Int) - n).natAbs := by
  rw [roundSteps_one]
  have closest := roundQuotient_nearest (Nat.two_pow_pos (excessBits n)) n
  by_cases large : 2 ^ 52 * 2 ^ excessBits n ≤ g
  · obtain ⟨m,rfl⟩ := significant.dvd large
    rw [Nat.mul_comm _ m]
    exact closest m
  · rcases Nat.eq_zero_or_pos (excessBits n) with none | some
    · have whole := closest n
      rw [none,Nat.pow_zero,Nat.mul_one] at whole ⊢
      omega
    · have below := Nat.mul_le_of_le_div _ _ _ (le_div_of_excessBits some)
      have corner := closest (2 ^ 52)
      omega

/-- A count of steps rounded to 53 significant bits, the sign apart. -/
def nearest (k : Int) : Int := if k < 0 then -(roundSteps k.natAbs 1 : Int) else roundSteps k.natAbs 1

theorem natAbs_nearest (k : Int) : (nearest k).natAbs = roundSteps k.natAbs 1 := by
  unfold nearest
  split <;> omega

theorem nearest_mono {a b : Int} (le : a ≤ b) : nearest a ≤ nearest b := by
  unfold nearest
  by_cases below : b < 0
  · have far : b.natAbs ≤ a.natAbs := by omega
    have := roundSteps_mono far
    rw [if_pos below,if_pos (by omega)]
    omega
  · rw [if_neg below]
    by_cases before : a < 0
    · rw [if_pos before]
      omega
    · have near : a.natAbs ≤ b.natAbs := by omega
      have := roundSteps_mono near
      rw [if_neg before]
      omega

theorem nearest_of_significant {k : Int} (significant : Significant k.natAbs) : nearest k = k := by
  obtain ⟨s,divides,few⟩ := significant
  have exact : roundSteps k.natAbs 1 = k.natAbs := roundSteps_exact divides few
  unfold nearest
  rw [exact]
  split <;> omega

/-- A count that is a number is the nearest one to itself. -/
theorem nearest_exact {k : Int} (fits : Representable k) : nearest k = k := nearest_of_significant fits.1

theorem representable_nearest {k : Int} (inside : (nearest k).natAbs < stepLimit) : Representable (nearest k) := by
  refine ⟨?_,inside⟩
  rw [natAbs_nearest]
  exact roundSteps_significant k.natAbs 1

theorem nearest_neg (k : Int) : nearest (-k) = -nearest k := by
  unfold nearest
  rw [Int.natAbs_neg]
  rcases Int.lt_trichotomy k 0 with below | rfl | above
  · rw [if_neg (by omega),if_pos below,Int.neg_neg]
  · decide
  · rw [if_pos (by omega),if_neg (by omega)]

/-- No count of 53 bits is closer than the nearest. -/
theorem natAbs_nearest_sub_le (k : Int) {g : Int} (significant : Significant g.natAbs) : (nearest k - k).natAbs ≤ (g - k).natAbs := by
  have zero : Significant 0 := ⟨0,Nat.dvd_zero _,Nat.zero_le _⟩
  have closest := roundSteps_nearest k.natAbs significant
  have closer := roundSteps_nearest k.natAbs zero
  unfold nearest
  split <;> omega

theorem exists_pow_between {n : Nat} (positive : 0 < n) : ∃ j : Nat, n ≤ 2 ^ j ∧ 2 ^ j < 2 * n := by
  have low := Nat.log2_self_le (Nat.ne_of_gt positive)
  have high : n < 2 ^ (n.log2 + 1) := Nat.lt_log2_self
  by_cases power : n ≤ 2 ^ n.log2
  · exact ⟨n.log2,power,by omega⟩
  · refine ⟨n.log2 + 1,by omega,?_⟩
    rw [Nat.pow_succ]
    omega

/-- The multiple next above of a power of two that is coarse enough has 53 bits. -/
theorem exists_significant_above {k : Int} {j : Nat} (low : -(2 ^ 53 * (2 ^ j : Nat)) ≤ k) (high : k < 2 ^ 53 * (2 ^ j : Nat)) :
    ∃ g : Int, Significant g.natAbs ∧ k < g ∧ g ≤ k + (2 ^ j : Nat) := by
  have positive : (0 : Int) < (2 ^ j : Nat) := Int.natCast_pos.mpr (Nat.two_pow_pos j)
  have split := Int.ediv_mul_add_emod k (2 ^ j : Nat)
  have rest := Int.emod_nonneg k (Int.ne_of_gt positive)
  have less := Int.emod_lt_of_pos k positive
  have below : k / (2 ^ j : Nat) < 2 ^ 53 := Int.ediv_lt_of_lt_mul positive high
  have above : -2 ^ 53 ≤ k / (2 ^ j : Nat) := Int.le_ediv_of_mul_le positive (by omega)
  have few : (k / (2 ^ j : Nat) + 1).natAbs ≤ 2 ^ 53 := by omega
  refine ⟨(k / (2 ^ j : Nat) + 1) * (2 ^ j : Nat),⟨j,?_,?_⟩,?_,?_⟩
  · rw [Int.natAbs_mul,Int.natAbs_natCast]
    exact Nat.dvd_mul_left ..
  · rw [Int.natAbs_mul,Int.natAbs_natCast]
    exact Nat.mul_le_mul_right _ few
  · rw [Int.add_mul]
    omega
  · rw [Int.add_mul]
    omega

/-- Adding a step moves a count on, if it is within `2 ^ 53` such steps. -/
theorem lt_nearest_add {k d : Int} (up : 0 < d) (low : -(2 ^ 53 * d) ≤ k) (high : k < 2 ^ 53 * d) : k < nearest (k + d) := by
  obtain ⟨j,wide,tight⟩ := exists_pow_between (n := d.toNat) (by omega)
  obtain ⟨g,significant,beyond,near⟩ := exists_significant_above (k := k) (j := j) (by omega) (by omega)
  by_cases within : g ≤ k + d
  · calc k
      _ < g := beyond
      _ = nearest g := (nearest_of_significant significant).symm
      _ ≤ nearest (k + d) := nearest_mono within
  · -- The count above is closer to the sum than the one that the step starts from.
    have closest := natAbs_nearest_sub_le (k + d) significant
    omega

namespace Number

variable {x y : Number} {a b i j : Int}

theorem steps?_ofRatio (negative : Bool) (n : Nat) : (ofRatio negative n 1).steps? =
    if roundSteps n 1 < stepLimit then some (if negative then -(roundSteps n 1 : Int) else roundSteps n 1) else none := by
  unfold ofRatio
  by_cases vanishes : roundSteps n 1 = 0
  · rw [if_pos vanishes,vanishes,if_pos stepLimit_pos]
    cases negative <;> rfl
  · rw [if_neg vanishes]
    by_cases inside : roundSteps n 1 < stepLimit
    · rw [dif_pos inside,if_pos inside]
      rfl
    · rw [dif_neg inside,if_neg inside]
      rfl

theorem steps?_ofSteps (k : Int) : (ofSteps k).steps? = if (nearest k).natAbs < stepLimit then some (nearest k) else none := by
  rw [ofSteps,steps?_ofRatio,natAbs_nearest,nearest]
  simp only [decide_eq_true_eq]

/-- A finite number is a count of steps, or else the negative zero. -/
theorem eq_finite (finite : x.steps? = some a) : (∃ fits, x = .finite a fits) ∨ a = 0 ∧ x = negZero := by
  cases x with
  | nan | infinite => cases finite
  | negZero => exact .inr ⟨(Option.some.inj finite).symm,rfl⟩
  | finite k fits =>
    obtain rfl := Option.some.inj finite
    exact .inl ⟨fits,rfl⟩

theorem representable_of_steps? (finite : x.steps? = some a) : Representable a := by
  rcases eq_finite finite with ⟨fits,rfl⟩ | ⟨rfl,rfl⟩
  · exact fits
  · exact representable_zero

/-! ## Sums -/

/-- A finite number is its count of steps, the negative zero apart. -/
theorem eq_ofSteps (finite : x.steps? = some a) : x = ofSteps a ∨ a = 0 ∧ x = negZero := by
  rcases eq_finite finite with ⟨fits,rfl⟩ | zero
  · left
    by_cases vanishes : a = 0
    · subst vanishes
      rfl
    · exact (ofSteps_exact fits vanishes).symm
  · exact .inr zero

/-- The sum is the exact one, rounded, unless it is the negative zero. -/
theorem add_ofSteps (left : x.steps? = some a) (right : y.steps? = some b) : x + y = ofSteps (a + b) ∨ a + b = 0 ∧ x + y = negZero := by
  rcases eq_finite left with ⟨fits,rfl⟩ | ⟨rfl,rfl⟩
  · rcases eq_finite right with ⟨fits',rfl⟩ | ⟨rfl,rfl⟩
    · exact .inl rfl
    · rw [Int.add_zero]
      exact eq_ofSteps left
  · rw [Int.zero_add]
    rcases eq_finite right with ⟨fits',rfl⟩ | ⟨rfl,rfl⟩
    · exact eq_ofSteps right
    · exact .inr ⟨rfl,rfl⟩

/-- The sum is the number nearest to the exact one, if there is one. -/
theorem steps?_add (left : x.steps? = some a) (right : y.steps? = some b) :
    (x + y).steps? = if (nearest (a + b)).natAbs < stepLimit then some (nearest (a + b)) else none := by
  rcases add_ofSteps left right with rounded | ⟨none,zero⟩
  · rw [rounded,steps?_ofSteps]
  · rw [zero,none,nearest_exact representable_zero,if_pos representable_zero.2]
    rfl

/-- A sum that is a number is exact. -/
theorem add_exact (left : x.steps? = some a) (right : y.steps? = some b) (fits : Representable (a + b)) :
    (x + y).steps? = some (a + b) := by
  rw [steps?_add left right,nearest_exact fits,if_pos fits.2]

theorem eq_nearest_of_add (left : x.steps? = some a) (right : y.steps? = some b) (sum : (x + y).steps? = some i) :
    i = nearest (a + b) := by
  rw [steps?_add left right] at sum
  split at sum
  · exact (Option.some.inj sum).symm
  · cases sum

/-- The sum does not pass a number that the exact sum does not pass. -/
theorem le_sum (left : x.steps? = some a) (right : y.steps? = some b) (sum : (x + y).steps? = some i) (fits : Representable j)
    (low : j ≤ a + b) : j ≤ i := by
  rw [eq_nearest_of_add left right sum,← nearest_exact fits]
  exact nearest_mono low

theorem sum_le (left : x.steps? = some a) (right : y.steps? = some b) (sum : (x + y).steps? = some i) (fits : Representable j)
    (high : a + b ≤ j) : i ≤ j := by
  rw [eq_nearest_of_add left right sum,← nearest_exact fits]
  exact nearest_mono high

theorem finite_of_add (right : y.steps? = some b) (sum : (x + y).steps? = some i) : ∃ a, x.steps? = some a := by
  cases x with
  | nan => cases sum
  | infinite => rcases eq_finite right with ⟨_,rfl⟩ | ⟨rfl,rfl⟩ <;> cases sum
  | negZero => exact ⟨0,rfl⟩
  | finite k fits => exact ⟨k,rfl⟩

/-- A sum with the count of steps of a summand is this summand, if the other one is not zero. -/
theorem add_eq_self (left : x.steps? = some a) (right : y.steps? = some b) (moves : b ≠ 0) (sum : (x + y).steps? = some a) :
    x + y = x := by
  have rounded := eq_nearest_of_add left right sum
  -- A zero stays no zero when something is added to it.
  have zero (vanishes : a = 0) : False := by
    rw [vanishes,Int.zero_add,nearest_exact (representable_of_steps? right)] at rounded
    exact moves rounded.symm
  rcases eq_ofSteps sum with same | ⟨vanishes,_⟩
  · rcases eq_ofSteps left with here | ⟨vanishes,_⟩
    · rw [same,← here]
    · exact (zero vanishes).elim
  · exact (zero vanishes).elim

/-! ## Whole numbers -/

theorem stepsPerOne_natCast_pos : (0 : Int) < stepsPerOne := Int.natCast_pos.mpr stepsPerOne_pos

theorem whole_ne_zero (nonzero : i ≠ 0) : i * (stepsPerOne : Int) ≠ 0 := Int.mul_ne_zero nonzero (Int.ne_of_gt stepsPerOne_natCast_pos)

theorem int?_eq_some : x.int? = some i ↔ x.steps? = some (i * stepsPerOne) := by
  have positive := Int.ne_of_gt stepsPerOne_natCast_pos
  unfold int?
  cases x.steps? with
  | none => exact iff_of_false nofun nofun
  | some k =>
    simp only [Option.some.injEq]
    constructor
    · intro whole
      split at whole
      · next divides =>
        obtain rfl := Option.some.inj whole
        exact (Int.ediv_mul_cancel (Int.dvd_of_emod_eq_zero divides)).symm
      · cases whole
    · rintro rfl
      rw [Int.mul_emod_left,if_pos rfl,Int.mul_ediv_cancel _ positive]

/-- An integer that is a number. -/
def Exact (i : Int) : Prop := ∃ n : Number, n.int? = some i

theorem exact_iff : Exact i ↔ Representable (i * stepsPerOne) := by
  constructor
  · rintro ⟨n,whole⟩
    exact representable_of_steps? (int?_eq_some.mp whole)
  · intro fits
    exact ⟨finite _ fits,int?_eq_some.mpr rfl⟩

theorem natAbs_whole (i : Int) : (i * (stepsPerOne : Int)).natAbs = i.natAbs * stepsPerOne := by
  rw [Int.natAbs_mul,Int.natAbs_natCast]

/-- Whole numbers up to `2 ^ 54` stay far below the limit. -/
theorem whole_lt_limit {n : Nat} (small : n ≤ 2 ^ 54) : n * stepsPerOne < stepLimit := by
  have bound : 2 ^ 54 * stepsPerOne < stepLimit := by decide +kernel
  exact Nat.lt_of_le_of_lt (Nat.mul_le_mul_right _ small) bound

/-- The integers up to `2 ^ 53` are numbers. -/
theorem exact_of_le (small : i.natAbs ≤ 2 ^ 53) : Exact i := by
  obtain ⟨s,_,one,_⟩ := exists_powers
  rw [exact_iff,Representable,natAbs_whole]
  refine ⟨⟨s,?_,?_⟩,whole_lt_limit (by omega)⟩
  · rw [one]
    exact Nat.dvd_mul_left ..
  · rw [one]
    exact Nat.mul_le_mul_right _ small

/-- The even integers up to `2 ^ 54` are numbers. -/
theorem exact_of_even (even : 2 ∣ i) (small : i.natAbs ≤ 2 ^ 54) : Exact i := by
  obtain ⟨s,_,one,_⟩ := exists_powers
  obtain ⟨half,rfl⟩ := even
  have doubled : (2 * half).natAbs * stepsPerOne = half.natAbs * 2 ^ (s + 1) := by
    rw [one,Int.natAbs_mul,Nat.pow_succ,Nat.mul_comm (2 ^ s),← Nat.mul_assoc,Nat.mul_comm half.natAbs]
    rfl
  rw [exact_iff,Representable,natAbs_whole]
  refine ⟨⟨s + 1,?_,?_⟩,whole_lt_limit small⟩
  · rw [doubled]
    exact Nat.dvd_mul_left ..
  · rw [doubled]
    have few : half.natAbs ≤ 2 ^ 53 := by omega
    exact Nat.mul_le_mul_right _ few

/-- From `2 ^ 53` on what is a number is twice a whole one. -/
theorem even_of_representable (fits : Representable a) (large : 2 ^ 53 * stepsPerOne ≤ a.natAbs) : (2 * stepsPerOne : Int) ∣ a := by
  obtain ⟨p,_,one,_⟩ := exists_powers
  have unit : 2 * stepsPerOne = 2 ^ (p + 1) := by rw [one,Nat.pow_succ,Nat.mul_comm]
  have many : 2 ^ 52 * 2 ^ (p + 1) ≤ a.natAbs := by
    rw [← unit]
    omega
  have multiple := Int.ofNat_dvd_left.mpr (unit ▸ Significant.dvd fits.1 many)
  rwa [Int.natCast_mul] at multiple

theorem even_of_exact (exact : Exact i) (large : 2 ^ 53 ≤ i.natAbs) : 2 ∣ i := by
  have positive := Int.ne_of_gt stepsPerOne_natCast_pos
  refine Int.dvd_of_mul_dvd_mul_right positive (even_of_representable (exact_iff.mp exact) ?_)
  rw [natAbs_whole]
  exact Nat.mul_le_mul_right _ large

/-- Which integers below `2 ^ 54` are numbers. -/
theorem exact_iff_even (small : i.natAbs ≤ 2 ^ 54) : Exact i ↔ i.natAbs ≤ 2 ^ 53 ∨ 2 ∣ i := by
  constructor
  · intro exact
    by_cases few : i.natAbs ≤ 2 ^ 53
    · exact .inl few
    · exact .inr (even_of_exact exact (by omega))
  · rintro (few | even)
    · exact exact_of_le few
    · exact exact_of_even even small

/-- A whole count below `2 ^ 54` is rounded to that of a whole number next to it, if it is no number itself. -/
theorem nearest_whole (small : i.natAbs < 2 ^ 54) :
    ∃ slip : Int, nearest (i * stepsPerOne) = (i + slip) * stepsPerOne ∧ slip.natAbs ≤ 1 ∧ (slip = 0 ↔ Exact i) := by
  have positive := stepsPerOne_natCast_pos
  by_cases exact : Exact i
  · refine ⟨0,?_,by decide,by simp [exact]⟩
    rw [Int.add_zero]
    exact nearest_exact (exact_iff.mp exact)
  · have odd := mt (exact_iff_even (by omega)).mpr exact
    -- Both neighbours are numbers, and rounding does not pass them.
    have below := nearest_mono (Int.mul_le_mul_of_nonneg_right (show i - 1 ≤ i by omega) (Int.le_of_lt positive))
    have above := nearest_mono (Int.mul_le_mul_of_nonneg_right (show i ≤ i + 1 by omega) (Int.le_of_lt positive))
    rw [nearest_exact (exact_iff.mp (exact_of_even (show 2 ∣ i - 1 by omega) (by omega)))] at below
    rw [nearest_exact (exact_iff.mp (exact_of_even (show 2 ∣ i + 1 by omega) (by omega)))] at above
    have inside : (nearest (i * stepsPerOne)).natAbs < stepLimit := by
      have low := whole_lt_limit (show (i - 1).natAbs ≤ 2 ^ 54 by omega)
      have high := whole_lt_limit (show (i + 1).natAbs ≤ 2 ^ 54 by omega)
      rw [← natAbs_whole] at low high
      omega
    have large : 2 ^ 53 * stepsPerOne ≤ (nearest (i * stepsPerOne)).natAbs := by
      by_cases sign : 0 < i
      · have := Int.mul_le_mul_of_nonneg_right (show 2 ^ 53 ≤ i - 1 by omega) (Int.le_of_lt positive)
        omega
      · have := Int.mul_le_mul_of_nonneg_right (show i + 1 ≤ -2 ^ 53 by omega) (Int.le_of_lt positive)
        omega
    obtain ⟨half,found⟩ := even_of_representable (representable_nearest inside) large
    rw [Int.mul_assoc,Int.mul_comm _ half,← Int.mul_assoc] at found
    rw [found] at below above
    have low := Int.le_of_mul_le_mul_right below positive
    have high := Int.le_of_mul_le_mul_right above positive
    refine ⟨2 * half - i,?_,by omega,?_⟩
    · rw [found]
      congr 1
      omega
    · constructor
      · intro same
        exact absurd (exact_of_even (show 2 ∣ i by omega) (by omega)) exact
      · intro also
        exact absurd also exact

/-- A sum of whole numbers below `2 ^ 54` is at most one off, and exact if the exact sum is a number. -/
theorem add_near (left : x.int? = some i) (right : y.int? = some j) (small : (i + j).natAbs < 2 ^ 54) :
    ∃ slip : Int, (x + y).int? = some (i + j + slip) ∧ slip.natAbs ≤ 1 ∧ (slip = 0 ↔ Exact (i + j)) := by
  obtain ⟨slip,found,near,none⟩ := nearest_whole small
  refine ⟨slip,?_,near,none⟩
  have inside : (i + j + slip).natAbs ≤ 2 ^ 54 := by omega
  have sum := steps?_add (int?_eq_some.mp left) (int?_eq_some.mp right)
  rw [← Int.add_mul,found,if_pos (by rw [natAbs_whole]; exact whole_lt_limit inside)] at sum
  exact int?_eq_some.mpr sum

theorem add_whole (left : x.int? = some i) (right : y.int? = some j) (exact : Exact (i + j)) : (x + y).int? = some (i + j) := by
  rw [int?_eq_some] at *
  rw [Int.add_mul]
  exact add_exact left right (by rw [← Int.add_mul]; exact exact_iff.mp exact)

/-! ## Remainders -/

/-- What is left of a number by a number is a number: it is less than either, and both are multiples of the finer of their
two units. -/
theorem representable_tmod (left : Representable a) (right : Representable b) : Representable (a.tmod b) := by
  obtain ⟨⟨s,divides,few⟩,inside⟩ := left
  obtain ⟨⟨s',divides',few'⟩,_⟩ := right
  have below : a.natAbs % b.natAbs ≤ a.natAbs := Nat.mod_le ..
  unfold Representable
  rw [Int.natAbs_tmod]
  refine ⟨?_,Nat.lt_of_le_of_lt below inside⟩
  by_cases finer : s ≤ s'
  · have shared : Nat.pow 2 s ∣ b.natAbs := Nat.dvd_trans (Nat.pow_dvd_pow 2 finer) divides'
    exact ⟨s,(Nat.dvd_mod_iff shared).mpr divides,Nat.le_trans below few⟩
  · have shared : Nat.pow 2 s' ∣ a.natAbs := Nat.dvd_trans (Nat.pow_dvd_pow 2 (by omega)) divides
    by_cases zero : b.natAbs = 0
    · rw [zero,Nat.mod_zero]
      exact ⟨s,divides,few⟩
    · have less : a.natAbs % b.natAbs < b.natAbs := Nat.mod_lt _ (by omega)
      exact ⟨s',(Nat.dvd_mod_iff divides').mpr shared,Nat.le_trans (Nat.le_of_lt less) few'⟩

theorem nonpos_of_isNegative (finite : x.steps? = some a) (negative : x.isNegative = true) : a ≤ 0 := by
  rcases eq_finite finite with ⟨fits,rfl⟩ | ⟨rfl,rfl⟩
  · simp only [isNegative,decide_eq_true_eq] at negative
    omega
  · exact Int.le_refl _

theorem nonneg_of_not_isNegative (finite : x.steps? = some a) (positive : x.isNegative = false) : 0 ≤ a := by
  rcases eq_finite finite with ⟨fits,rfl⟩ | ⟨rfl,rfl⟩
  · simp only [isNegative,decide_eq_false_iff_not] at positive
    omega
  · cases positive

theorem isZero_iff (finite : x.steps? = some a) : x.isZero = true ↔ a = 0 := by
  rcases eq_finite finite with ⟨fits,rfl⟩ | ⟨rfl,rfl⟩
  · simp [isZero]
  · simp [isZero]

/-- The remainder is exact, whatever the numbers. -/
theorem steps?_rem (left : x.steps? = some a) (right : y.steps? = some b) (divides : b ≠ 0) : (rem x y).steps? = some (a.tmod b) := by
  have opened : rem x y = ofRatio x.isNegative (x.magnitude % y.magnitude) 1 := by
    have nonzero : y.isZero = false := Bool.eq_false_iff.mpr fun zero => divides ((isZero_iff right).mp zero)
    rcases eq_finite left with ⟨_,rfl⟩ | ⟨rfl,rfl⟩ <;> rcases eq_finite right with ⟨_,rfl⟩ | ⟨rfl,rfl⟩ <;> simp [rem,nonzero]
  have size : x.magnitude % y.magnitude = (a.tmod b).natAbs := by
    rw [magnitude,magnitude,left,right,Option.getD_some,Option.getD_some,Int.natAbs_tmod]
  have fits := representable_tmod (representable_of_steps? left) (representable_of_steps? right)
  have kept : roundSteps (a.tmod b).natAbs 1 = (a.tmod b).natAbs := by rw [← natAbs_nearest,nearest_exact fits]
  rw [opened,size,steps?_ofRatio,kept,if_pos fits.2]
  cases sign : x.isNegative with
  | true =>
    have below : a ≤ 0 := nonpos_of_isNegative left sign
    have : (-a).tmod b = -a.tmod b := Int.neg_tmod ..
    have : 0 ≤ (-a).tmod b := Int.tmod_nonneg b (by omega)
    rw [if_pos rfl]
    congr 1
    omega
  | false =>
    have : 0 ≤ a.tmod b := Int.tmod_nonneg b (nonneg_of_not_isNegative left sign)
    rw [if_neg (by decide)]
    congr 1
    omega

theorem rem_whole (left : x.int? = some i) (right : y.int? = some j) (divides : j ≠ 0) : (rem x y).int? = some (i.tmod j) := by
  have positive := stepsPerOne_natCast_pos
  rw [int?_eq_some] at *
  rw [steps?_rem left right (whole_ne_zero divides)]
  congr 1
  rw [Int.mul_comm i,Int.mul_comm j,Int.mul_tmod_mul_of_pos _ _ positive,Int.mul_comm]

end Number
end ConfTree
