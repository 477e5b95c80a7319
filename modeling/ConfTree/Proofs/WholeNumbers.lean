import Mathlib.Data.List.TakeWhile
import ConfTree.Number.Decimal
import ConfTree.Proofs.Rounding

/-!
# Whole numbers in decimal

A whole number below `2 ^ 53` is written by its digits. A decimal with no digits behind the point reads back as it only if
it is equal to it, so the shortest decimal that does so leaves out nothing but zeros at the end, and these are put back
when the digits are laid out.
-/
namespace ConfTree

variable {c n q : Nat}

/-- A power of ten puts zeros behind the digits. -/
theorem toDigits_mul_pow (positive : 0 < c) (q : Nat) :
    Nat.toDigits 10 (c * 10 ^ q) = Nat.toDigits 10 c ++ List.replicate q '0' := by
  induction q with
  | zero => simp
  | succ q ih =>
    have more : 0 < c * 10 ^ q := Nat.mul_pos positive (Nat.pow_pos (by decide))
    have split := Nat.toDigits_append_toDigits (b := 10) (by decide) more (d := 0) (by decide)
    rw [Nat.pow_succ,← Nat.mul_assoc,Nat.mul_comm _ 10,← Nat.add_zero (10 * _),← split,ih,List.replicate_succ',List.append_assoc]
    rfl

theorem digitCount_mul_pow (positive : 0 < c) (q : Nat) : digitCount (c * 10 ^ q) = digitCount c + q := by
  rw [digitCount,toDigits_mul_pow positive,List.length_append,List.length_replicate,digitCount]

/-- There are at most sixteen digits below `2 ^ 53`. -/
theorem digitCount_le (small : n < 2 ^ 53) : digitCount n ≤ 16 :=
  (Nat.length_toDigits_le_iff (by decide) (by decide)).mpr (Nat.lt_trans small (by decide))

theorem decimalRatio_natCast (c q : Nat) : decimalRatio c q = (c * 10 ^ q,1) := by
  rw [decimalRatio,if_neg (Int.not_lt.mpr (Int.natCast_nonneg q)),Int.toNat_natCast]
  rfl

theorem decimalRatio_zero (c : Nat) : decimalRatio c 0 = (c,1) := by simp [decimalRatio]

namespace Number

theorem significantDigits_append (c : Nat) : ∃ z, significantDigits c ++ List.replicate z '0' = Nat.toDigits 10 c := by
  have zeros : ∀ d ∈ (Nat.toDigits 10 c).reverse.takeWhile (· == '0'), d = '0' := fun d member => by
    simpa using List.mem_takeWhile_imp member
  refine ⟨((Nat.toDigits 10 c).reverse.takeWhile (· == '0')).length,?_⟩
  rw [significantDigits,← List.reverse_inj,List.reverse_append,List.reverse_replicate,← List.eq_replicate_of_mem zeros,
    List.reverse_reverse,List.takeWhile_append_dropWhile]

/-- A whole number that is rounded to the same count as one below `2 ^ 53` is this one. -/
theorem wholeSteps_inj {m : Nat} (small : n < 2 ^ 53) (same : wholeSteps m = wholeSteps n) : m = n := by
  rw [wholeSteps_exact small] at same
  rcases Nat.lt_or_ge m (2 ^ 53) with below | above
  · rw [wholeSteps_exact below] at same
    exact Nat.eq_of_mul_eq_mul_right stepsPerOne_pos same
  · -- Counts that are as great as that of the bound are never those of a lesser number.
    have bound : wholeSteps (2 ^ 53) = 2 ^ 53 * stepsPerOne := by
      obtain ⟨s,-,one,-⟩ := exists_powers
      rw [wholeSteps,one]
      exact roundSteps_exact (Nat.dvd_mul_left ..) (Nat.le_refl _)
    have greater := wholeSteps_mono above
    rw [bound,same] at greater
    exact absurd (Nat.le_of_mul_le_mul_right greater stepsPerOne_pos) (Nat.not_le.mpr small)

theorem decimalExponent_whole (positive : 0 < n) : decimalExponent (n * stepsPerOne) = digitCount n := by
  rw [decimalExponent,if_pos (Nat.le_mul_of_pos_left _ positive),Nat.mul_div_cancel _ stepsPerOne_pos]

/-- A decimal that reads back as a whole number, its last digit before the point, is equal to it. -/
theorem eq_of_readsAs (small : n < 2 ^ 53) (reads : readsAs (n * stepsPerOne) c q = true) : c * 10 ^ q = n := by
  simp only [readsAs,decimalRatio_natCast,beq_iff_eq] at reads
  exact wholeSteps_inj small (by rw [wholeSteps_exact small]; exact reads)

/-- What is found at a length reads back, and has this length. -/
theorem readsAs_of_decimalOfLength {m p : Nat} {e : Int} (found : decimalOfLength? m p = some (c,e)) :
    e = decimalExponent m - p ∧ readsAs m c e = true := by
  simp only [decimalOfLength?] at found
  split at found
  · obtain ⟨rfl,rfl⟩ := Prod.mk.inj (Option.some.inj found)
    exact ⟨rfl,‹_›⟩
  split at found
  · obtain ⟨rfl,rfl⟩ := Prod.mk.inj (Option.some.inj found)
    exact ⟨rfl,‹_›⟩
  split at found
  · obtain ⟨rfl,rfl⟩ := Prod.mk.inj (Option.some.inj found)
    exact ⟨rfl,‹_›⟩
  · cases found

/-- All digits of a whole number read back. -/
theorem decimalOfLength_whole (positive : 0 < n) (small : n < 2 ^ 53) :
    decimalOfLength? (n * stepsPerOne) (digitCount n) = some (n,0) := by
  have exact : roundSteps (n * stepsPerOne) 1 = n * stepsPerOne := wholeSteps_exact small
  have reads : readsAs (n * stepsPerOne) n 0 = true := by
    simp only [readsAs,decimalRatio_zero,exact,beq_self_eq_true]
  have nearest : roundQuotient (n * stepsPerOne) stepsPerOne = n := by
    rw [roundQuotient_of_dvd stepsPerOne_pos (Nat.dvd_mul_left ..),Nat.mul_div_cancel _ stepsPerOne_pos]
  simp only [decimalOfLength?,decimalExponent_whole positive,Int.sub_self,Int.neg_zero,decimalRatio_zero,Nat.one_mul,nearest,
    reads,if_true]

/-- The shortest decimal that reads back as a whole number leaves out zeros at its end. -/
theorem shortestDecimal_whole (positive : 0 < n) (small : n < 2 ^ 53) :
    ∃ c q : Nat, shortestDecimal (n * stepsPerOne) = (c,(q : Int)) ∧ c * 10 ^ q = n := by
  have some_digit : 0 < digitCount n := Nat.length_toDigits_pos
  have few := digitCount_le small
  have all := decimalOfLength_whole positive small
  unfold shortestDecimal
  cases found : (List.range 17).findSome? fun p => decimalOfLength? (n * stepsPerOne) (p + 1) with
  | none =>
    have failed := List.findSome?_eq_none_iff.mp found (digitCount n - 1) (List.mem_range.mpr (by omega))
    rw [Nat.sub_add_cancel some_digit,all] at failed
    cases failed
  | some d =>
    obtain ⟨c,e⟩ := d
    obtain ⟨before,p,after,order,here,earlier⟩ := List.findSome?_eq_some_iff.mp found
    -- No more digits are looked at than the number has, as these are found.
    have length : p + 1 ≤ digitCount n := by
      refine Nat.le_of_not_lt fun longer => ?_
      have sorted : (List.range 17).Pairwise (· < ·) := List.pairwise_lt_range
      have listed : digitCount n - 1 ∈ List.range 17 := List.mem_range.mpr (by omega)
      rw [order,List.pairwise_append,List.pairwise_cons] at sorted
      rw [order,List.mem_append,List.mem_cons] at listed
      have failed : decimalOfLength? (n * stepsPerOne) (digitCount n - 1 + 1) = none := by
        rcases listed with first | same | last
        · exact earlier _ first
        · omega
        · have := sorted.2.1.1 _ last
          omega
      rw [Nat.sub_add_cancel some_digit,all] at failed
      cases failed
    obtain ⟨exponent,reads⟩ := readsAs_of_decimalOfLength here
    rw [decimalExponent_whole positive] at exponent
    have whole : e = ((digitCount n - (p + 1) : Nat) : Int) := by omega
    subst whole
    exact ⟨c,_,rfl,eq_of_readsAs small reads⟩

/-- The digits of a whole number, the zeros at its end put back. -/
theorem magnitudeText_whole (positive : 0 < n) (small : n < 2 ^ 53) : magnitudeText (n * stepsPerOne) = Nat.toDigits 10 n := by
  obtain ⟨c,q,shortest,same⟩ := shortestDecimal_whole positive small
  have significant : 0 < c := Nat.pos_of_ne_zero fun zero => by
    rw [zero,Nat.zero_mul] at same
    omega
  obtain ⟨z,cut⟩ := significantDigits_append c
  have count : digitCount n = (significantDigits c).length + z + q := by
    rw [← same,digitCount_mul_pow significant,digitCount,← cut,List.length_append,List.length_replicate]
  have few := digitCount_le small
  have within : ((significantDigits c).length : Int) ≤ digitCount n ∧ (digitCount n : Int) ≤ 21 := by omega
  have place : (digitCount c : Int) + q = (digitCount n : Int) := by
    rw [← same,digitCount_mul_pow significant,Int.natCast_add]
  have zeros : digitCount n - (significantDigits c).length = z + q := by omega
  rw [magnitudeText,shortest,place,layout,if_pos within,Int.toNat_natCast,zeros,← List.replicate_append_replicate,
    ← List.append_assoc,cut,← toDigits_mul_pow significant,same]

/-- A whole number below `2 ^ 53` is written by its digits. -/
theorem text_ofNat (small : n < 2 ^ 53) : (ofNat n).text = Text.ofNat n := by
  obtain ⟨fits,number⟩ := ofNat_exact small
  rw [number,text]
  rcases Nat.eq_zero_or_pos n with rfl | positive
  · rw [if_pos (by rw [Nat.zero_mul]; rfl)]
    rfl
  · have steps : 0 < n * stepsPerOne := Nat.mul_pos positive stepsPerOne_pos
    rw [if_neg (by omega),if_neg (by omega),Int.natAbs_natCast,magnitudeText_whole positive small]
    rfl

theorem neg_finite {k : Int} {fits : Representable k} (nonzero : k ≠ 0) : -(finite k fits) = ofSteps (-k) := by
  show neg _ = _
  rw [neg,if_neg nonzero]

/-- A whole number below zero is the one above with its sign changed. -/
theorem neg_ofNat (positive : 0 < n) (small : n < 2 ^ 53) : -ofNat n = ofInt (-n) := by
  obtain ⟨fits,number⟩ := ofNat_exact small
  have steps : 0 < n * stepsPerOne := Nat.mul_pos positive stepsPerOne_pos
  rw [number,neg_finite (by omega),ofInt,Int.neg_mul,Int.natCast_mul]

/-- Below zero the digits stand behind a sign. -/
theorem text_neg_ofNat (positive : 0 < n) (small : n < 2 ^ 53) :
    (ofInt (-n)).text = ⟨CodeUnit.ofChar '-' :: (Text.ofNat n).units⟩ := by
  obtain ⟨fits,number⟩ := ofNat_exact small
  have steps : 0 < n * stepsPerOne := Nat.mul_pos positive stepsPerOne_pos
  have fits' : Representable (-((n * stepsPerOne : Nat) : Int)) := by
    rw [Representable,Int.natAbs_neg]
    exact fits
  have number' : ofInt (-n) = .finite (-((n * stepsPerOne : Nat) : Int)) fits' := by
    rw [ofInt,Int.neg_mul,← Int.natCast_mul]
    exact ofSteps_exact fits' (by omega)
  rw [number',text,if_neg (by omega),if_pos (by omega),Int.natAbs_neg,Int.natAbs_natCast,magnitudeText_whole positive small]
  rfl

end Number
end ConfTree
