/-!
# Numbers

The numbers of binary64, exactly. A finite number is a whole count of steps of size `2 ^ -1074`,
the least positive number; so the order of numbers is the order of integers, sums of counts are
exact, and every operation is an exact operation followed by one rounding to 53 significant bits
(`roundSteps`), a tie going to the even neighbour.
-/
namespace ConfTree

/-- The count of steps in one. -/
def stepsPerOne : Nat := Nat.pow 2 1074

/-- The power of two at which numbers end, counted in steps: that of `2 ^ 1024`. -/
def limitExponent : Nat := 2098

/-- The count of steps at which numbers end. -/
def stepLimit : Nat := Nat.pow 2 limitExponent

/-- `k` steps are a number when 53 significant bits write them and they stay below the limit. -/
def Representable (k : Int) : Prop :=
  (∃ s : Nat, Nat.pow 2 s ∣ k.natAbs ∧ k.natAbs ≤ Nat.pow 2 53 * Nat.pow 2 s) ∧ k.natAbs < stepLimit

/-- A number: not a number, an infinity, the negative zero, or a count of steps. -/
inductive Number where
  | nan
  | infinite (negative : Bool)
  | negZero
  | finite (steps : Int) (fits : Representable steps)
deriving DecidableEq

/-! ## Rounding -/

/-- The whole number nearest to `n / c`, a half going to the even one. -/
def roundQuotient (n c : Nat) : Nat :=
  if 2 * (n % c) < c then n / c
  else if c < 2 * (n % c) then n / c + 1
  else n / c + n / c % 2

/-- How many low bits of a whole number exceed 53 significant ones. -/
def excessBits (q : Nat) : Nat := q.log2 + 1 - 53

/-- `n / d` rounded to 53 significant bits. -/
def roundSteps (n d : Nat) : Nat :=
  roundQuotient n (d * Nat.pow 2 (excessBits (n / d))) * Nat.pow 2 (excessBits (n / d))

theorem roundQuotient_le (n c : Nat) : roundQuotient n c ≤ n / c + 1 := by
  unfold roundQuotient
  have := Nat.mod_lt (n / c) (show 0 < 2 by decide)
  split
  · omega
  · split <;> omega

theorem div_excessBits_lt (q : Nat) : q / Nat.pow 2 (excessBits q) < Nat.pow 2 53 := by
  have h : q < 2 ^ (q.log2 + 1) := Nat.lt_log2_self
  simp only [Nat.pow_eq]
  rw [Nat.div_lt_iff_lt_mul (Nat.two_pow_pos _),← Nat.pow_add]
  exact Nat.lt_of_lt_of_le h (Nat.pow_le_pow_right (by decide) (by unfold excessBits; omega))

/-- A rounded count has at most 53 significant bits. -/
theorem roundSteps_significant (n d : Nat) :
    ∃ s : Nat, Nat.pow 2 s ∣ roundSteps n d ∧ roundSteps n d ≤ Nat.pow 2 53 * Nat.pow 2 s := by
  refine ⟨excessBits (n / d),Nat.dvd_mul_left ..,?_⟩
  unfold roundSteps
  apply Nat.mul_le_mul_right
  have h := roundQuotient_le n (d * Nat.pow 2 (excessBits (n / d)))
  rw [← Nat.div_div_eq_div_mul] at h
  have := div_excessBits_lt (n / d)
  omega

theorem representable_round {n d : Nat} (h : roundSteps n d < stepLimit) (negative : Bool) :
    Representable (if negative then -(roundSteps n d : Int) else roundSteps n d) := by
  have := roundSteps_significant n d
  cases negative <;> simpa [Representable] using ⟨this,h⟩

theorem stepLimit_pos : 0 < stepLimit := by
  unfold stepLimit
  generalize limitExponent = n
  exact Nat.two_pow_pos n

theorem representable_zero : Representable 0 := ⟨⟨0,by simp,by simp⟩,by simpa using stepLimit_pos⟩

namespace Number

def zero : Number := .finite 0 representable_zero

instance : Inhabited Number := ⟨zero⟩

/-- The zero of a sign. -/
def signedZero (negative : Bool) : Number := if negative then .negZero else zero

/-- `n / d` steps of a sign, rounded; what rounds past the limit is infinite. -/
def ofRatio (negative : Bool) (n d : Nat) : Number :=
  if roundSteps n d = 0 then signedZero negative
  else if h : roundSteps n d < stepLimit then .finite _ (representable_round h negative)
  else .infinite negative

/-- A count of steps, rounded. -/
def ofSteps (k : Int) : Number := ofRatio (k < 0) k.natAbs 1

/-- The number nearest to an integer. -/
def ofInt (i : Int) : Number := ofSteps (i * stepsPerOne)

/-- The number nearest to a natural number. -/
def ofNat (n : Nat) : Number := ofInt n

/-! ## Kinds of numbers -/

def isNaN : Number → Bool
  | .nan => true
  | _ => false

def isFinite : Number → Bool
  | .nan | .infinite _ => false
  | _ => true

/-- Whether the sign is minus; the negative zero has one. -/
def isNegative : Number → Bool
  | .nan => false
  | .infinite negative => negative
  | .negZero => true
  | .finite k _ => k < 0

/-- Whether the number is one of the two zeros. -/
def isZero : Number → Bool
  | .negZero => true
  | .finite k _ => k == 0
  | _ => false

/-- The count of steps of a finite number, both zeros having none. -/
def steps? : Number → Option Int
  | .finite k _ => some k
  | .negZero => some 0
  | _ => none

/-- The count of steps without its sign. -/
def magnitude (x : Number) : Nat := (x.steps?.getD 0).natAbs

/-- The integer that the number is. -/
def int? (x : Number) : Option Int :=
  match x.steps? with
  | some k => if k % stepsPerOne = 0 then some (k / stepsPerOne) else none
  | none => none

def isInteger (x : Number) : Bool := x.int?.isSome

/-! ## Arithmetic and comparison -/

def neg : Number → Number
  | .nan => .nan
  | .infinite negative => .infinite !negative
  | .negZero => zero
  | .finite k _ => if k = 0 then .negZero else ofSteps (-k)

def abs (x : Number) : Number := if x.isNegative then x.neg else x

/-- The sum; equal and opposite numbers give the positive zero. -/
def add : Number → Number → Number
  | .nan, _ | _, .nan => .nan
  | .infinite a, .infinite b => if a = b then .infinite a else .nan
  | .infinite a, _ => .infinite a
  | _, .infinite b => .infinite b
  | .negZero, y => y
  | x, .negZero => x
  | .finite a _, .finite b _ => ofSteps (a + b)

def sub (x y : Number) : Number := x.add y.neg

def mul (x y : Number) : Number :=
  match x, y with
  | .nan, _ | _, .nan => .nan
  | .infinite _, _ => if y.isZero then .nan else .infinite (x.isNegative != y.isNegative)
  | _, .infinite _ => if x.isZero then .nan else .infinite (x.isNegative != y.isNegative)
  | _, _ => ofRatio (x.isNegative != y.isNegative) (x.magnitude * y.magnitude) stepsPerOne

def div (x y : Number) : Number :=
  match x, y with
  | .nan, _ | _, .nan => .nan
  | .infinite _, .infinite _ => .nan
  | .infinite _, _ => .infinite (x.isNegative != y.isNegative)
  | _, .infinite _ => signedZero (x.isNegative != y.isNegative)
  | _, _ =>
    if y.isZero then (if x.isZero then .nan else .infinite (x.isNegative != y.isNegative))
    else ofRatio (x.isNegative != y.isNegative) (x.magnitude * stepsPerOne) y.magnitude

/-- The remainder of division toward zero; it has the sign of the dividend. -/
def rem (x y : Number) : Number :=
  match x, y with
  | .nan, _ | _, .nan => .nan
  | .infinite _, _ => .nan
  | _, .infinite _ => x
  | _, _ => if y.isZero then .nan else ofRatio x.isNegative (x.magnitude % y.magnitude) 1

instance : Neg Number := ⟨neg⟩
instance : Add Number := ⟨add⟩
instance : Sub Number := ⟨sub⟩
instance : Mul Number := ⟨mul⟩
instance : Div Number := ⟨div⟩

/-- Numeric equality: the zeros are equal, and not-a-number equals nothing. -/
def same : Number → Number → Bool
  | .nan, _ | _, .nan => false
  | .infinite a, .infinite b => a == b
  | .infinite _, _ | _, .infinite _ => false
  | x, y => x.steps? == y.steps?

/-- Equality of set members: as `same`, and not-a-number equals itself. -/
def sameMember (x y : Number) : Bool := same x y || (x.isNaN && y.isNaN)

/-- The order of two numbers, read from the sign of their difference; none if that is no number. -/
def order (x y : Number) : Option Ordering :=
  let d := x.sub y
  if d.isNaN then none
  else if d.isZero then some .eq
  else if d.isNegative then some .lt
  else some .gt

/-! ## Whole numbers near a number -/

/-- The integer `i`, a zero taking the sign of the number it comes from. -/
def wholeLike (x : Number) (i : Int) : Number := if i = 0 then signedZero x.isNegative else ofInt i

/-- Applies a choice of integer to the exact value, given as a count of steps. -/
def toWhole (choose : Int → Int) (x : Number) : Number :=
  match x with
  | .finite k _ => wholeLike x (choose k)
  | _ => x

/-- The greatest integer not above the number. -/
def floor : Number → Number := toWhole fun k => k / stepsPerOne

/-- The least integer not below the number. -/
def ceil : Number → Number := toWhole fun k => -(-k / stepsPerOne)

/-- The integer part, toward zero. -/
def trunc : Number → Number := toWhole fun k => k.tdiv stepsPerOne

/-- The nearest integer, a half going up. -/
def round : Number → Number := toWhole fun k => (2 * k + stepsPerOne) / (2 * stepsPerOne)

end Number
end ConfTree
