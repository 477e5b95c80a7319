import ConfTree.Eval.Evaluator
import ConfTree.Eval.Functions
import ConfTree.Proofs.Arithmetic
import ConfTree.Proofs.Runs
import ConfTree.Proofs.Slices

/-!
# Arithmetic progressions

The terms of a range are found by a walk that adds the step again and again. The sum is rounded, so the walk may pass by the
terms, or come to a number that adding the step does not change. It finds the exact terms just where all of them are numbers
(`progression_exact_iff`), as they are between bounds up to `2 ^ 53`, and it never ends just where it comes to a number before
the stop that the step does not change (`progressionFrom_eq_none_iff`), for which a bound has to be beyond
`2 ^ 53` steps (`progression_ends`). A list is repeated by a walk from zero in steps of one; so it has a value up to `2 ^ 53` times
and none beyond, whatever its items (`operate_repetition_iff`).
-/
namespace ConfTree.Sequence

open Number

variable {x y z : Number} {a b d start stop stride : Int} {found : List Number}

/-- The places of a walk are the terms of a progression, all that come before the stop. -/
theorem places_terms (stop : Int) (moves : stride ≠ 0) (start : Int) : ∃ n : Nat,
    places stop stride start = (List.range n).map (fun k : Nat => start + k * stride) ∧
      ∀ k : Nat, k < n ↔ 0 < toGo stop stride (start + k * stride) := by
  have shifted (start : Int) (k : Nat) : start + stride + k * stride = start + (k + 1 : Nat) * stride := by
    rw [Int.natCast_add,Int.add_mul]
    omega
  fun_induction places stop stride start with
  | case1 start more ih =>
    obtain ⟨n,terms,inside⟩ := ih
    refine ⟨n + 1,?_,?_⟩
    · rw [terms,List.range_succ_eq_map,List.map_cons,List.map_map]
      congr 1
      · simp
      · exact List.map_congr_left fun k _ => shifted start k
    · intro k
      cases k with
      | zero => simpa using more.2
      | succ k =>
        rw [← shifted,← inside]
        omega
  | case2 start done =>
    refine ⟨0,rfl,?_⟩
    intro k
    have arrived : ¬ 0 < toGo stop stride start := fun ahead => done ⟨moves,ahead⟩
    unfold toGo at arrived ⊢
    by_cases upward : 0 < stride
    · have : 0 ≤ k * stride := Int.mul_nonneg (Int.natCast_nonneg k) (by omega)
      simp only [if_pos upward] at arrived ⊢
      omega
    · have : k * stride ≤ 0 := Int.mul_nonpos_of_nonneg_of_nonpos (Int.natCast_nonneg k) (by omega)
      simp only [if_neg upward] at arrived ⊢
      omega

/-! ## One step -/

theorem isBefore_finite (before : isBefore z x y = true) : ∃ a b, x.steps? = some a ∧ y.steps? = some b ∧
    (if z.isNegative then b < a else a < b) := by
  unfold isBefore at before
  split at before
  · next a b left right =>
    refine ⟨a,b,left,right,?_⟩
    split at before <;> simp_all
  · cases before

theorem isBefore_iff (left : x.steps? = some a) (right : y.steps? = some b) :
    isBefore z x y = true ↔ if z.isNegative then b < a else a < b := by
  unfold isBefore
  rw [left,right]
  simp only
  split <;> simp

theorem isNegative_iff (step : z.steps? = some d) (moves : d ≠ 0) : z.isNegative = true ↔ d < 0 := by
  constructor
  · intro negative
    have := nonpos_of_isNegative step negative
    omega
  · intro below
    by_cases negative : z.isNegative = true
    · exact negative
    · have := nonneg_of_not_isNegative step (Bool.eq_false_iff.mpr negative)
      omega

/-- A step does not lead back, rounded as it is. -/
theorem add_onward (left : x.steps? = some a) (step : z.steps? = some d) {i : Int} (sum : (x + z).steps? = some i) :
    (0 ≤ d → a ≤ i) ∧ (d ≤ 0 → i ≤ a) := by
  have fits := representable_of_steps? left
  constructor
  · intro upward
    exact le_sum left step sum fits (by omega)
  · intro downward
    exact sum_le left step sum fits (by omega)

/-- What a step leads to does not come before the stop unless what it starts from does. -/
theorem isBefore_of_add (step : z.steps? = some d) (before : isBefore z (x + z) y = true) : isBefore z x y = true := by
  obtain ⟨i,b,sum,right,ahead⟩ := isBefore_finite before
  obtain ⟨a,left⟩ := finite_of_add step sum
  obtain ⟨up,down⟩ := add_onward left step sum
  rw [isBefore_iff left right]
  by_cases negative : z.isNegative = true
  · have := down (nonpos_of_isNegative step negative)
    rw [if_pos negative] at ahead ⊢
    omega
  · have := up (nonneg_of_not_isNegative step (Bool.eq_false_iff.mpr negative))
    rw [if_neg negative] at ahead ⊢
    omega

theorem isBefore_of_iterate (step : z.steps? = some d) {n : Nat} (before : isBefore z ((· + z)^[n] x) y = true) :
    isBefore z x y = true := by
  induction n generalizing x with
  | zero => exact before
  | succ n ih => exact isBefore_of_add step (ih before)

/-- A step that does not lead closer to the stop leads nowhere. -/
theorem add_eq_self_of_not_closer (step : z.steps? = some d) (moves : d ≠ 0) (before : isBefore z (x + z) y = true)
    (far : ¬ distance (x + z) y < distance x y) : x + z = x := by
  obtain ⟨i,b,sum,right,ahead⟩ := isBefore_finite before
  obtain ⟨a,left⟩ := finite_of_add step sum
  obtain ⟨up,down⟩ := add_onward left step sum
  rw [distance,distance,sum,left,right,Option.getD_some,Option.getD_some,Option.getD_some] at far
  have same : i = a := by
    by_cases negative : z.isNegative = true
    · have := down (nonpos_of_isNegative step negative)
      rw [if_pos negative] at ahead
      omega
    · have := up (nonneg_of_not_isNegative step (Bool.eq_false_iff.mpr negative))
      rw [if_neg negative] at ahead
      omega
  apply add_eq_self left step moves
  rw [sum,same]

theorem isNegative_whole (step : z.int? = some d) (moves : d ≠ 0) : z.isNegative = true ↔ d < 0 := by
  have positive := stepsPerOne_natCast_pos
  rw [isNegative_iff (int?_eq_some.mp step) (whole_ne_zero moves)]
  constructor
  · exact fun below => Int.neg_of_mul_neg_right (Int.mul_comm .. ▸ below) positive
  · exact fun below => Int.mul_neg_of_neg_of_pos below positive

/-- Whole numbers come before each other as integers do. -/
theorem isBefore_whole (left : x.int? = some a) (right : y.int? = some b) (step : z.int? = some d) (moves : d ≠ 0) :
    isBefore z x y = true ↔ 0 < toGo b d a := by
  have positive := stepsPerOne_natCast_pos
  have negative := isNegative_whole step moves
  rw [isBefore_iff (int?_eq_some.mp left) (int?_eq_some.mp right)]
  unfold toGo
  by_cases upward : 0 < d
  · rw [if_neg (by rw [negative]; omega),if_pos upward,Int.mul_lt_mul_right positive]
    omega
  · rw [if_pos (by rw [negative]; omega),if_neg upward,Int.mul_lt_mul_right positive]
    omega

/-- The sum behind the last term does not come before the stop, rounded as it is: the stop is a number. -/
theorem not_isBefore_add (left : x.int? = some a) (right : y.int? = some b) (step : z.int? = some d) (moves : d ≠ 0)
    (arrived : ¬ 0 < toGo b d (a + d)) : isBefore z (x + z) y = false := by
  have positive := stepsPerOne_natCast_pos
  have negative := isNegative_whole step moves
  rw [int?_eq_some] at left right step
  apply Bool.eq_false_iff.mpr
  intro before
  obtain ⟨i,b',sum,right',ahead⟩ := isBefore_finite before
  obtain rfl := Option.some.inj (right.symm.trans right')
  have fits := representable_of_steps? right
  unfold toGo at arrived
  by_cases upward : 0 < d
  · rw [if_pos upward] at arrived
    have beyond := Int.mul_le_mul_of_nonneg_right (show b ≤ a + d by omega) (Int.le_of_lt positive)
    rw [Int.add_mul] at beyond
    have := le_sum left step sum fits beyond
    rw [if_neg (by rw [negative]; omega)] at ahead
    omega
  · rw [if_neg upward] at arrived
    have beyond := Int.mul_le_mul_of_nonneg_right (show a + d ≤ b by omega) (Int.le_of_lt positive)
    rw [Int.add_mul] at beyond
    have := sum_le left step sum fits beyond
    rw [if_pos (by rw [negative]; omega)] at ahead
    omega

/-- A whole step leads closer. -/
theorem closer_of_whole {x' : Number} (left : x.int? = some a) (right : y.int? = some b) (next : x'.int? = some (a + d))
    (moves : d ≠ 0) (again : 0 < toGo b d (a + d)) : distance x' y < distance x y := by
  have positive := stepsPerOne_natCast_pos
  rw [int?_eq_some] at left right next
  rw [distance,distance,next,left,right,Option.getD_some,Option.getD_some,Option.getD_some,← Int.sub_mul,← Int.sub_mul,natAbs_whole,
    natAbs_whole]
  refine Nat.mul_lt_mul_of_pos_right ?_ stepsPerOne_pos
  unfold toGo at again
  split at again <;> omega

/-! ## The course -/

/-- The walk does not end just where a step leads nowhere before the stop. -/
theorem progressionFrom_eq_none_iff (step : z.steps? = some d) (moves : d ≠ 0) : progressionFrom found x y z = none ↔
    ∃ n : Nat, isBefore z ((· + z)^[n] x) y = true ∧ (· + z)^[n] x + z = (· + z)^[n] x := by
  fun_induction progressionFrom found x y z with
  | case1 found x done =>
    refine iff_of_false nofun ?_
    rintro ⟨n,before,_⟩
    rw [isBefore_of_iterate step before] at done
    cases done
  | case2 found x more next last =>
    refine iff_of_false nofun ?_
    rintro ⟨n,before,stuck⟩
    cases n with
    | zero =>
      rw [← stuck] at before
      rw [show isBefore z next y = true from before] at last
      cases last
    | succ n =>
      rw [show isBefore z next y = true from isBefore_of_iterate step before] at last
      cases last
  | case3 found x more next again closer ih =>
    rw [ih]
    constructor
    · rintro ⟨n,before,stuck⟩
      exact ⟨n + 1,before,stuck⟩
    · rintro ⟨n,before,stuck⟩
      cases n with
      | zero =>
        have same : next = x := stuck
        rw [same] at closer
        exact absurd closer (Nat.lt_irrefl _)
      | succ n => exact ⟨n,before,stuck⟩
  | case4 found x more next again far =>
    have before : isBefore z (x + z) y = true := by simpa using again
    refine iff_of_true rfl ⟨0,by simpa using more,add_eq_self_of_not_closer step moves before far⟩

/-- The walk goes in the direction of the step. -/
theorem onward_iterate (left : x.steps? = some a) (step : z.steps? = some d) (n : Nat) {c : Int} (here : ((· + z)^[n] x).steps? = some c) :
    (0 ≤ d → a ≤ c) ∧ (d ≤ 0 → c ≤ a) := by
  induction n generalizing c with
  | zero =>
    obtain rfl := Option.some.inj (left.symm.trans here)
    exact ⟨fun _ => Int.le_refl _,fun _ => Int.le_refl _⟩
  | succ n ih =>
    rw [Function.iterate_succ_apply'] at here
    obtain ⟨c',earlier⟩ := finite_of_add step here
    obtain ⟨up,down⟩ := ih earlier
    obtain ⟨further,back⟩ := add_onward earlier step here
    constructor
    · intro upward
      exact Int.le_trans (up upward) (further upward)
    · intro downward
      exact Int.le_trans (back downward) (down downward)

/-- The walk ends if neither bound is beyond `2 ^ 53` steps of its size. -/
theorem progression_ends (left : x.steps? = some a) (right : y.steps? = some b) (step : z.steps? = some d) (moves : d ≠ 0)
    (start : a.natAbs ≤ 2 ^ 53 * d.natAbs) (stop : b.natAbs ≤ 2 ^ 53 * d.natAbs) : (progression x y z).isSome = true := by
  apply Option.isSome_iff_ne_none.mpr
  intro endless
  obtain ⟨n,before,stuck⟩ := (progressionFrom_eq_none_iff step moves).mp endless
  obtain ⟨c,b',here,right',ahead⟩ := isBefore_finite before
  obtain rfl := Option.some.inj (right.symm.trans right')
  obtain ⟨up,down⟩ := onward_iterate left step n here
  have negative := isNegative_iff step moves
  have still : c = nearest (c + d) := eq_nearest_of_add here step (by rw [stuck]; exact here)
  by_cases upward : 0 < d
  · rw [if_neg (by rw [negative]; omega)] at ahead
    have := up (by omega)
    have := lt_nearest_add (k := c) upward (by omega) (by omega)
    omega
  · rw [if_pos (by rw [negative]; omega)] at ahead
    have := down (by omega)
    have := lt_nearest_add (k := -c) (d := -d) (by omega) (by omega) (by omega)
    rw [← Int.neg_add,nearest_neg] at this
    omega

/-- Where all terms are numbers, these are found. -/
theorem progressionFrom_exact (found : List Number) (left : x.int? = some a) (right : y.int? = some b) (step : z.int? = some d) (moves : d ≠ 0)
    (fits : ∀ p ∈ places b d a, Exact p) : ∃ terms : List Number,
      progressionFrom found x y z = some (found.reverse ++ terms) ∧ terms.map int? = (places b d a).map some := by
  fun_induction places b d a generalizing found x with
  | case1 a more ih =>
    have before : isBefore z x y = true := (isBefore_whole left right step moves).mpr more.2
    obtain ⟨_,later⟩ := List.forall_mem_cons.mp fits
    by_cases again : 0 < toGo b d (a + d)
    · have listed : a + d ∈ places b d (a + d) := by
        rw [places,if_pos ⟨moves,again⟩]
        exact List.mem_cons_self
      have next : (x + z).int? = some (a + d) := add_whole left step (later _ listed)
      obtain ⟨terms,walk,same⟩ := ih (x :: found) next later
      refine ⟨x :: terms,?_,?_⟩
      · rw [progressionFrom]
        simp [before,(isBefore_whole next right step moves).mpr again,closer_of_whole left right next moves again,walk]
      · rw [List.map_cons,List.map_cons,left,same]
    · have last := not_isBefore_add left right step moves again
      refine ⟨[x],?_,?_⟩
      · rw [progressionFrom]
        simp [before,last]
      · rw [places,if_neg fun more => again more.2,List.map_singleton,List.map_singleton,left]
  | case2 a done =>
    have arrived : isBefore z x y = false := by
      refine Bool.eq_false_iff.mpr fun before => done ⟨moves,?_⟩
      exact (isBefore_whole left right step moves).mp before
    refine ⟨[],?_,rfl⟩
    rw [progressionFrom]
    simp [arrived]

/-- The exact terms are found just where all of them are numbers. -/
theorem progression_exact_iff (left : x.int? = some a) (right : y.int? = some b) (step : z.int? = some d) (moves : d ≠ 0) :
    (∃ terms, progression x y z = some terms ∧ terms.map int? = (places b d a).map some) ↔ ∀ p ∈ places b d a, Exact p := by
  constructor
  · rintro ⟨terms,_,same⟩ p listed
    have found : some p ∈ terms.map int? := by
      rw [same]
      exact List.mem_map_of_mem listed
    obtain ⟨n,_,whole⟩ := List.mem_map.mp found
    exact ⟨n,whole⟩
  · intro fits
    obtain ⟨terms,walk,same⟩ := progressionFrom_exact [] left right step moves fits
    exact ⟨terms,walk,same⟩

/-- All terms between bounds up to `2 ^ 53` are numbers. -/
theorem exact_of_mem_places (moves : d ≠ 0) (low : a.natAbs ≤ 2 ^ 53) (high : b.natAbs ≤ 2 ^ 53) {p : Int} (listed : p ∈ places b d a) :
    Exact p := by
  obtain ⟨between,_⟩ := (mem_places moves a p).mp listed
  refine exact_of_le ?_
  split at between <;> omega

theorem int?_zero : zero.int? = some 0 := by decide +kernel

/-- Counting from zero comes to each number up to `2 ^ 53`. -/
theorem count_whole {n : Nat} (small : n ≤ 2 ^ 53) : ((· + ofNat 1)^[n] zero).int? = some (n : Int) := by
  induction n with
  | zero => exact int?_zero
  | succ n ih =>
    rw [Function.iterate_succ_apply']
    exact add_whole (ih (by omega)) (int?_ofNat (by decide)) (exact_of_le (by omega))

/-- There counting stands still. -/
theorem add_one_eq_self (whole : x.int? = some (2 ^ 53)) : x + ofNat 1 = x := by
  have last : x = ofNat 9007199254740992 := by
    rcases eq_ofSteps (int?_eq_some.mp whole) with same | ⟨vanishes,_⟩
    · exact same
    · exact absurd vanishes (whole_ne_zero (by decide))
  rw [last]
  decide +kernel

theorem exact_of_mem_counts (few : b ≤ 2 ^ 53) {p : Int} (listed : p ∈ places b 1 0) : Exact p := by
  obtain ⟨between,_⟩ := (mem_places (by decide) 0 p).mp listed
  rw [if_pos (by decide)] at between
  exact exact_of_le (by omega)

/-- Up to `2 ^ 53` the counts are found, as many as are to be. -/
theorem progression_count (whole : y.int? = some b) (few : b ≤ 2 ^ 53) :
    ∃ counts : List Number, progression zero y (ofNat 1) = some counts ∧ counts.length = b.toNat := by
  have one : (ofNat 1).int? = some 1 := int?_ofNat (by decide)
  have fits (p : Int) (listed : p ∈ places b 1 0) : Exact p := exact_of_mem_counts few listed
  obtain ⟨counts,found,same⟩ := (progression_exact_iff int?_zero whole one (by decide)).mpr fits
  refine ⟨counts,found,?_⟩
  obtain ⟨k,listed,inside⟩ := places_terms b (by decide : (1 : Int) ≠ 0) 0
  have long : counts.length = k := by
    have lengths := congrArg List.length same
    rw [listed] at lengths
    simpa using lengths
  have below := inside b.toNat
  have above := inside k
  rw [toGo,if_pos (by decide)] at below above
  omega

/-- Counting from zero does not end just where it is to come to a number beyond `2 ^ 53`. -/
theorem progression_count_eq_none_iff (whole : y.int? = some b) : progression zero y (ofNat 1) = none ↔ 2 ^ 53 < b := by
  constructor
  · intro endless
    by_contra within
    obtain ⟨counts,found,_⟩ := progression_count whole (by omega)
    rw [endless] at found
    cases found
  · intro beyond
    obtain ⟨n,last⟩ : ∃ n : Nat, n = 2 ^ 53 := ⟨_,rfl⟩
    have one : (ofNat 1).int? = some 1 := int?_ofNat (by decide)
    have here := count_whole (Nat.le_of_eq last)
    refine (progressionFrom_eq_none_iff (int?_eq_some.mp one) (whole_ne_zero (by decide))).mpr ⟨n,?_,?_⟩
    · refine (isBefore_whole here whole one (by decide)).mpr ?_
      rw [toGo,if_pos (by decide)]
      omega
    · exact add_one_eq_self (by rw [here,last]; rfl)

/-- The walk does not end when the step is less than the gap between two numbers. -/
example : progression (ofNat 9007199254740992) (ofNat 9007199254740994) (ofNat 1) = none := by
  have one : (ofNat 1).int? = some 1 := int?_ofNat (by decide)
  exact (progressionFrom_eq_none_iff (int?_eq_some.mp one) (whole_ne_zero (by decide))).mpr ⟨0,by decide +kernel,by decide +kernel⟩

end ConfTree.Sequence

namespace ConfTree.Functions

open Number Sequence StoreM

variable {host : Host} {args : List Value} {keyword : Pairs} {s : Store} {x y z : Number} {a b d : Int} {terms : List Number}

/-! ## Ranges -/

/-- What a range is called with: the bounds and the step, a start of zero and a step of one if they are left out. -/
inductive Bounded : List Value → Number → Number → Number → Prop where
  | stop (y : Number) : Bounded [.number y] zero y (ofNat 1)
  | bounds (x y : Number) : Bounded [.number x,.number y] x y (ofNat 1)
  | step (x y z : Number) : Bounded [.number x,.number y,.number z] x y z

/-- A range is the list of the terms that the walk finds. -/
theorem range_runs (given : rangeBounds args = .ok (x,y,z)) (found : progression x y z = some terms) :
    Runs (call host .range args keyword) s (.ok (.list s.nextIdentity (terms.map .number))) (s.issued 1) := by
  refine (check_run given).bind ?_
  simp only [found]
  exact compute_list_run

/-- A range runs on where the walk does. -/
theorem range_unending (given : rangeBounds args = .ok (x,y,z)) (endless : progression x y z = none) {r : Except Thrown Value}
    {t : Store} : ¬ Runs (call host .range args keyword) s r t := by
  intro run
  have rest := (Runs.bind_iff (check_run given)).mp run
  simp only [endless] at rest
  exact Runs.unending_iff rest

section

variable (given : Bounded args x y z) (left : x.int? = some a) (right : y.int? = some b) (step : z.int? = some d) (moves : d ≠ 0)
include given left right step moves

theorem rangeBounds_ok : rangeBounds args = .ok (x,y,z) := by
  have nonzero : z.isZero = false := by
    apply Bool.eq_false_iff.mpr
    intro zero
    exact whole_ne_zero moves ((isZero_iff (int?_eq_some.mp step)).mp zero)
  have integer {n : Number} {i : Int} (whole : n.int? = some i) : expectInteger .range (.number n) = .ok n := by
    have sure : n.isInteger = true := by rw [isInteger,whole,Option.isSome_some]
    exact if_pos sure
  cases given <;>
    simp [rangeBounds,arity,argument,integer left,integer right,integer step,nonzero,bind,Except.bind,pure,Except.pure]

/-- A range of integers ends if both bounds are within `2 ^ 53` steps. -/
theorem range_ends (start : a.natAbs ≤ 2 ^ 53 * d.natAbs) (stop : b.natAbs ≤ 2 ^ 53 * d.natAbs) : ∃ terms : List Number,
    Runs (call host .range args keyword) s (.ok (.list s.nextIdentity (terms.map .number))) (s.issued 1) := by
  have scaled {i : Int} (near : i.natAbs ≤ 2 ^ 53 * d.natAbs) :
      (i * (stepsPerOne : Int)).natAbs ≤ 2 ^ 53 * (d * (stepsPerOne : Int)).natAbs := by
    rw [natAbs_whole,natAbs_whole,← Nat.mul_assoc]
    exact Nat.mul_le_mul_right _ near
  have ends := progression_ends (int?_eq_some.mp left) (int?_eq_some.mp right) (int?_eq_some.mp step)
    (whole_ne_zero moves) (scaled start) (scaled stop)
  obtain ⟨terms,found⟩ := Option.isSome_iff_exists.mp ends
  exact ⟨terms,range_runs (rangeBounds_ok given left right step moves) found⟩

/-- A range of integers is the list of all terms of the progression before the stop, just where each of them is a number. -/
theorem range_exact_iff : (∃ terms : List Number,
    Runs (call host .range args keyword) s (.ok (.list s.nextIdentity (terms.map .number))) (s.issued 1) ∧
      terms.map int? = (places b d a).map some) ↔ ∀ p ∈ places b d a, Exact p := by
  have bounds := rangeBounds_ok given left right step moves
  rw [← progression_exact_iff left right step moves]
  constructor
  · rintro ⟨terms,run,exact⟩
    cases found : progression x y z with
    | none => exact absurd run (range_unending bounds found)
    | some others =>
      obtain ⟨same,_⟩ := Runs.unique run (range_runs bounds found)
      have alike : terms = others := by simpa [List.map_inj_right] using same
      exact ⟨others,rfl,alike ▸ exact⟩
  · rintro ⟨terms,found,exact⟩
    exact ⟨terms,range_runs bounds found,exact⟩

/-- Between bounds up to `2 ^ 53` a range is the list of the terms from the start on by the step that come before the stop. -/
theorem range_terms (low : a.natAbs ≤ 2 ^ 53) (high : b.natAbs ≤ 2 ^ 53) : ∃ (terms : List Number) (n : Nat),
      Runs (call host .range args keyword) s (.ok (.list s.nextIdentity (terms.map .number))) (s.issued 1) ∧
        terms.map int? = (List.range n).map (fun k : Nat => some (a + k * d)) ∧
          ∀ k : Nat, k < n ↔ 0 < toGo b d (a + k * d) := by
  obtain ⟨n,listed,inside⟩ := places_terms b moves a
  have fits (p : Int) (among : p ∈ places b d a) : Exact p := exact_of_mem_places moves low high among
  obtain ⟨terms,run,exact⟩ := (range_exact_iff (s := s) given left right step moves).mpr fits
  rw [listed,List.map_map] at exact
  exact ⟨terms,n,run,exact,inside⟩

end

end ConfTree.Functions

namespace ConfTree.Operators

open Number Sequence StoreM

variable {op : BinaryOp} {v w : Value} {items : List Value} {n : Number} {i : Int} {s t : Store} {r : Except Thrown Value}

/-! ## Repetitions -/

/-- A list is repeated as often as an integer up to `2 ^ 53` says. -/
theorem repeatItems_whole (whole : n.int? = some i) (few : i ≤ 2 ^ 53) :
    repeatItems items n = some (List.replicate i.toNat items).flatten := by
  obtain ⟨counts,found,long⟩ := progression_count whole few
  rw [repeatItems,found,Option.map_some,List.flatMap_def,List.map_const',long]

theorem repeatItems_eq_none_iff (whole : n.int? = some i) : repeatItems items n = none ↔ 2 ^ 53 < i := by
  rw [repeatItems,Option.map_eq_none_iff,progression_count_eq_none_iff whole]

/-- A product that repeats a list has a value just up to `2 ^ 53` times, and this is the items so many times over. Beyond, it has
none, not even where there are no items. -/
theorem operate_repetition_iff (repeats : repetition? op v w = some (items,n)) (whole : n.int? = some i) :
    Runs (Eval.operate op v w) s r t ↔
      i ≤ 2 ^ 53 ∧ r = .ok (.list s.nextIdentity (List.replicate i.toNat items).flatten) ∧ t = s.issued 1 := by
  by_cases few : i ≤ 2 ^ 53
  · have course : Eval.operate op v w = compute (Compute.list (List.replicate i.toNat items).flatten) := by
      simp only [Eval.operate,repeats,repeatItems_whole whole few]
    rw [course]
    constructor
    · intro run
      obtain ⟨same,after⟩ := Runs.unique run compute_list_run
      exact ⟨few,same,after⟩
    · rintro ⟨_,rfl,rfl⟩
      exact compute_list_run
  · have course : Eval.operate op v w = unending := by
      simp only [Eval.operate,repeats,(repeatItems_eq_none_iff whole).mpr (Int.not_le.mp few)]
    rw [course]
    constructor
    · intro run
      exact (Runs.unending_iff run).elim
    · rintro ⟨within,_⟩
      exact absurd within few

/-- Counting to `2 ^ 53 + 2` does not end, though there is nothing to repeat. -/
example : repeatItems [] (ofNat 9007199254740994) = none :=
  (repeatItems_eq_none_iff (i := 9007199254740994) (by decide +kernel)).mpr (by decide)

end ConfTree.Operators
