import ConfTree.Eval.Operators
import ConfTree.Proofs.Arithmetic

/-!
# Remainders with the sign of the divisor

The remainder that has the sign of the divisor is taken in three steps: the remainder with the sign of the dividend, the
divisor added to it, and the remainder of that. The first and the last step are exact, and between whole numbers below
`2 ^ 53` the sum is at most one off. So what comes out always has the size and the sign of such a remainder, and is the
remainder of a dividend at most one off (`modulo_near`); it is that of the dividend itself just where the sum is a number
(`modulo_exact_iff`), as it is for divisors up to `2 ^ 52`.
-/
namespace ConfTree

/-- What is left of `l` after whole multiples of `r`, less than `r` and of its sign. -/
structure IsRemainder (l r m : Int) : Prop where
  congruent : r ∣ l - m
  small : m.natAbs < r.natAbs
  signed : m = 0 ∨ m.sign = r.sign

namespace IsRemainder

variable {l l' r m m' : Int}

/-- There is one such remainder. -/
theorem unique (first : IsRemainder l r m) (second : IsRemainder l r m') : m = m' := by
  have apart : r ∣ m - m' := by
    have := Int.dvd_sub second.congruent first.congruent
    rwa [show l - m' - (l - m) = m - m' by omega] at this
  have near : (m - m').natAbs < r.natAbs := by
    have := first.small
    have := second.small
    rcases first.signed with rfl | sign
    · omega
    rcases second.signed with rfl | sign'
    · omega
    rcases Int.lt_trichotomy r 0 with below | zero | above
    · rw [Int.sign_eq_neg_one_of_neg below] at sign sign'
      have := Int.neg_of_sign_eq_neg_one sign
      have := Int.neg_of_sign_eq_neg_one sign'
      omega
    · omega
    · rw [Int.sign_eq_one_of_pos above] at sign sign'
      have := Int.pos_of_sign_eq_one sign
      have := Int.pos_of_sign_eq_one sign'
      omega
  have := Int.eq_zero_of_dvd_of_natAbs_lt_natAbs apart near
  omega

/-- Dividends that leave the same are whole multiples apart. -/
theorem dvd_sub (first : IsRemainder l r m) (second : IsRemainder l' r m) : r ∣ l - l' := by
  have := Int.dvd_sub first.congruent second.congruent
  rwa [show l - m - (l' - m) = l - l' by omega] at this

/-- What has the sign of the divisor leaves a remainder of that sign when the sign of the dividend is kept. -/
theorem of_tmod {s : Int} (divides : r ≠ 0) (congruent : r ∣ l - s) (signed : s = 0 ∨ s.sign = r.sign) : IsRemainder l r (s.tmod r) where
  congruent := by
    have := Int.dvd_add congruent (Int.dvd_self_sub_tmod (x := s) (m := r))
    rwa [show l - s + (s - s.tmod r) = l - s.tmod r by omega] at this
  small := by
    rw [Int.natAbs_tmod]
    exact Nat.mod_lt _ (by omega)
  signed := by
    by_cases multiple : r ∣ s
    · exact .inl (Int.tmod_eq_zero_of_dvd multiple)
    · rcases signed with rfl | sign
      · exact absurd (Int.dvd_zero r) multiple
      · refine .inr ?_
        rw [Int.sign_tmod,if_neg multiple,sign]

end IsRemainder

namespace Number

variable {x y : Number} {l r : Int}

/-- The divisor added to a remainder of the sign of the dividend has the sign of the divisor, and exceeds it at most by less than
itself. -/
theorem tmod_add_sign (l : Int) (divides : r ≠ 0) :
    (l.tmod r + r).sign = r.sign ∧ (l.tmod r + r).natAbs < 2 * r.natAbs := by
  have less : (l.tmod r).natAbs < r.natAbs := by
    rw [Int.natAbs_tmod]
    exact Nat.mod_lt _ (by omega)
  refine ⟨?_,by omega⟩
  rcases Int.lt_or_gt_of_ne divides with below | above
  · rw [Int.sign_eq_neg_one_of_neg below,Int.sign_eq_neg_one_of_neg (by omega)]
  · rw [Int.sign_eq_one_of_pos above,Int.sign_eq_one_of_pos (by omega)]

/-- Adding at most one to a great integer does not change its sign. -/
theorem sign_add_slip {s slip : Int} (near : slip.natAbs ≤ 1) (great : 1 < s.natAbs) : (s + slip).sign = s.sign := by
  rcases Int.lt_or_gt_of_ne (show s ≠ 0 by omega) with below | above
  · rw [Int.sign_eq_neg_one_of_neg below,Int.sign_eq_neg_one_of_neg (by omega)]
  · rw [Int.sign_eq_one_of_pos above,Int.sign_eq_one_of_pos (by omega)]

/-- What comes out is the remainder of a dividend at most one off, and of the dividend itself if the sum in between is a number. -/
theorem modulo_near (left : x.int? = some l) (right : y.int? = some r) (divides : r ≠ 0) (safe : r.natAbs ≤ 2 ^ 53) :
    ∃ m slip : Int, (modulo x y).int? = some m ∧ IsRemainder (l + slip) r m ∧ slip.natAbs ≤ 1 ∧ (slip = 0 ↔ Exact (l.tmod r + r)) := by
  obtain ⟨sign,size⟩ := tmod_add_sign l divides
  have first : (rem x y).int? = some (l.tmod r) := rem_whole left right divides
  obtain ⟨slip,sum,near,none⟩ := add_near first right (by omega)
  refine ⟨_,slip,rem_whole sum right divides,.of_tmod divides ?_ (.inr ?_),near,none⟩
  · have multiple : r ∣ l - l.tmod r - r := Int.dvd_sub Int.dvd_self_sub_tmod (Int.dvd_refl r)
    rwa [show l + slip - (l.tmod r + r + slip) = l - l.tmod r - r by omega]
  · by_cases exact : Exact (l.tmod r + r)
    · rw [none.mpr exact,Int.add_zero,sign]
    · have great := mt exact_of_le exact
      rw [sign_add_slip near (by omega),sign]

/-- The sum in between is a number unless it is odd and beyond `2 ^ 53`. -/
theorem exact_tmod_add_iff (l : Int) (divides : r ≠ 0) (safe : r.natAbs ≤ 2 ^ 53) :
    Exact (l.tmod r + r) ↔ (l.tmod r + r).natAbs ≤ 2 ^ 53 ∨ 2 ∣ l.tmod r + r := by
  have size := (tmod_add_sign l divides).2
  exact exact_iff_even (by omega)

/-- The remainder comes out just where the sum in between is a number. -/
theorem modulo_exact_iff (left : x.int? = some l) (right : y.int? = some r) (divides : r ≠ 0) (safe : r.natAbs ≤ 2 ^ 53) :
    (∃ m, (modulo x y).int? = some m ∧ IsRemainder l r m) ↔ Exact (l.tmod r + r) := by
  obtain ⟨m,slip,found,remainder,near,none⟩ := modulo_near left right divides safe
  constructor
  · rintro ⟨m',found',also⟩
    obtain rfl := Option.some.inj (found.symm.trans found')
    -- The dividend and the one it was taken for are a multiple of the divisor apart.
    have apart : r ∣ slip := by
      have := remainder.dvd_sub also
      rwa [show l + slip - l = slip by omega] at this
    by_cases exact : Exact (l.tmod r + r)
    · exact exact
    · have great := mt exact_of_le exact
      have size := (tmod_add_sign l divides).2
      exact none.mp (Int.eq_zero_of_dvd_of_natAbs_lt_natAbs apart (by omega))
  · intro exact
    rw [none.mpr exact,Int.add_zero] at remainder
    exact ⟨m,found,remainder⟩

/-- Of two dividends below their divisor the odd one is left, and the even one comes out one less than it is. -/
example : (modulo (ofNat 9007199254740989) (ofNat 9007199254740991)).int? = some 9007199254740989 ∧
    (modulo (ofNat 9007199254740990) (ofNat 9007199254740991)).int? = some 9007199254740989 := by decide +kernel

end Number

namespace Operators

variable {x y : Number} {l r : Int}

/-- Two whole numbers have a remainder by `%` if the divisor is at most `2 ^ 52`, or more generally if the sum in between is a
number. -/
theorem binary_modulo (left : x.int? = some l) (right : y.int? = some r) (divides : r ≠ 0) (safe : r.natAbs ≤ 2 ^ 53)
    (exact : r.natAbs ≤ 2 ^ 52 ∨ Number.Exact (l.tmod r + r)) :
    ∃ z m, binary .modulo (.number x) (.number y) = pure (.number z) ∧ z.int? = some m ∧ IsRemainder l r m := by
  have between : Number.Exact (l.tmod r + r) := by
    rcases exact with small | exact
    · have size := (Number.tmod_add_sign l divides).2
      exact Number.exact_of_le (by omega)
    · exact exact
  obtain ⟨m,found,remainder⟩ := (Number.modulo_exact_iff left right divides safe).mpr between
  refine ⟨Number.modulo x y,m,?_,found,remainder⟩
  have nonzero : y.isZero = false := by
    apply Bool.eq_false_iff.mpr
    intro zero
    exact Number.whole_ne_zero divides ((Number.isZero_iff (Number.int?_eq_some.mp right)).mp zero)
  have divided : dividing .moduloByZero Number.modulo x y = .ok (Number.modulo x y) := by simp [dividing,nonzero]
  rw [binary,numeric,divided]
  rfl

end Operators
end ConfTree
