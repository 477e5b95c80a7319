import ConfTree.Number.Basic
import ConfTree.Text.Blank

/-!
# Decimal text of numbers

A number is written with the fewest significant digits that read back as the same number, and of
those with the digits nearest to it; positionally from `1e-6` up to `1e21`, with an exponent
outside. Reading takes any decimal literal to the nearest number.
-/
namespace ConfTree

/-- How many decimal digits a natural number has. -/
def digitCount (n : Nat) : Nat := (Nat.toDigits 10 n).length

/-- `c * 10 ^ e` as a fraction. -/
def decimalRatio (c : Nat) (e : Int) : Nat × Nat :=
  if e < 0 then (c,Nat.pow 10 (-e).toNat) else (c * Nat.pow 10 e.toNat,1)

namespace Number

/-- The number nearest to `c * 10 ^ e`; far outside the range of numbers the power is not taken. -/
def ofDecimal (negative : Bool) (c : Nat) (e : Int) : Number :=
  if c = 0 then signedZero negative
  else if e > 400 then .infinite negative
  else if (digitCount c : Int) + e < -400 then signedZero negative
  else
    let r := decimalRatio c e
    ofRatio negative (r.1 * stepsPerOne) r.2

/-! ## Writing -/

/-- The exponent `n` for which `m` steps lie from `10 ^ (n - 1)` up to `10 ^ n`. -/
def decimalExponent (m : Nat) : Int :=
  if stepsPerOne ≤ m then digitCount (m / stepsPerOne) else 1 - digitCount ((stepsPerOne - 1) / m)

/-- Whether `c * 10 ^ e` rounds to `m` steps. -/
def readsAs (m c : Nat) (e : Int) : Bool :=
  let r := decimalRatio c e
  roundSteps (r.1 * stepsPerOne) r.2 == m

/-- The decimal of `p` digits nearest to `m` steps, if one of that length reads back. -/
def decimalOfLength? (m p : Nat) : Option (Nat × Int) :=
  let e := decimalExponent m - p
  let scaled := decimalRatio m (-e)
  let den := scaled.2 * stepsPerOne
  let low := scaled.1 / den
  let up := roundQuotient scaled.1 den
  if readsAs m up e then some (up,e)
  else if readsAs m low e then some (low,e)
  else if readsAs m (low + 1) e then some (low + 1,e)
  else none

/-- The fewest digits that read back as `m` steps, with their exponent. -/
def shortestDecimal (m : Nat) : Nat × Int :=
  ((List.range 17).findSome? fun p => decimalOfLength? m (p + 1)).getD (0,0)

/-- Digits without the zeros at their end. -/
def significantDigits (c : Nat) : List Char :=
  ((Nat.toDigits 10 c).reverse.dropWhile (· == '0')).reverse

/-- The digits laid out, the point standing before digit number `n`. -/
def layout (digits : List Char) (n : Int) : List Char :=
  if digits.length ≤ n ∧ n ≤ 21 then digits ++ List.replicate (n.toNat - digits.length) '0'
  else if 0 < n ∧ n ≤ 21 then digits.take n.toNat ++ '.' :: digits.drop n.toNat
  else if -6 < n ∧ n ≤ 0 then '0' :: '.' :: (List.replicate (-n).toNat '0' ++ digits)
  else
    let exponent := (if n - 1 < 0 then '-' else '+') :: Nat.toDigits 10 (n - 1).natAbs
    match digits with
    | [d] => d :: 'e' :: exponent
    | d :: rest => d :: '.' :: (rest ++ 'e' :: exponent)
    | [] => 'e' :: exponent

/-- The text of a finite number that is not zero, by its count of steps. -/
def magnitudeText (m : Nat) : List Char :=
  let d := shortestDecimal m
  layout (significantDigits d.1) (digitCount d.1 + d.2)

/-- The text of a number; both zeros are written `0`. -/
def text : Number → Text
  | .nan => "NaN"
  | .infinite negative => if negative then "-Infinity" else "Infinity"
  | .negZero => "0"
  | .finite k _ =>
    if k = 0 then "0"
    else if k < 0 then ⟨('-' :: magnitudeText k.natAbs).map CodeUnit.ofChar⟩
    else ⟨(magnitudeText k.natAbs).map CodeUnit.ofChar⟩

/-! ## Reading -/

/-- The number that a run of digits writes in a base. -/
def valueOfDigits (base : Nat) (us : List CodeUnit) : Nat :=
  us.foldl (fun n u => n * base + (u.hexValue?.getD 0)) 0

/-- A sign, if there is one, and the rest. -/
def splitSign : List CodeUnit → Bool × List CodeUnit
  | [] => (false,[])
  | u :: rest => if u == '-' then (true,rest) else if u == '+' then (false,rest) else (false,u :: rest)

/-- An exponent: a sign and digits to the end. -/
def readExponent? (us : List CodeUnit) : Option Int :=
  let (negative,digits) := splitSign us
  if digits.isEmpty || !digits.all CodeUnit.isDigit then none
  else
    let e := valueOfDigits 10 digits
    some (if negative then -(e : Int) else e)

/-- The digits after a point, if one comes first, and the rest. -/
def splitFraction : List CodeUnit → List CodeUnit × List CodeUnit
  | [] => ([],[])
  | u :: rest => if u == '.' then rest.span CodeUnit.isDigit else ([],u :: rest)

/-- A decimal without sign: digits around an optional point, then an optional exponent. -/
def readDecimal? (negative : Bool) (us : List CodeUnit) : Option Number :=
  let (whole,afterWhole) := us.span CodeUnit.isDigit
  let (fraction,rest) := splitFraction afterWhole
  let c := valueOfDigits 10 (whole ++ fraction)
  if whole.isEmpty && fraction.isEmpty then none
  else match rest with
    | [] => some (ofDecimal negative c (-(fraction.length : Int)))
    | u :: exponent =>
      if u == 'e' || u == 'E' then
        (readExponent? exponent).map fun e => ofDecimal negative c (e - fraction.length)
      else none

/-- Digits of a base to the end. -/
def readBase? (base : Nat) (us : List CodeUnit) : Option Number :=
  if us.isEmpty || us.any (fun u => u.hexValue?.all (base ≤ ·)) then none
  else some (ofNat (valueOfDigits base us))

/-- The literal of the infinity. -/
def infinityLiteral : Text := "Infinity"

/-- The number a literal without blanks around it writes: decimal, infinite, or of base 2, 8 or 16. -/
def ofLiteral? (us : List CodeUnit) : Option Number :=
  match us with
  | [] => some zero
  | u :: v :: digits =>
    if u == '0' && (v == 'x' || v == 'X') then readBase? 16 digits
    else if u == '0' && (v == 'o' || v == 'O') then readBase? 8 digits
    else if u == '0' && (v == 'b' || v == 'B') then readBase? 2 digits
    else signed us
  | _ => signed us
where
  signed (us : List CodeUnit) : Option Number :=
    let (negative,rest) := splitSign us
    if rest = infinityLiteral.units then some (.infinite negative) else readDecimal? negative rest

/-- The number a text writes, blanks around it ignored; not-a-number if it writes none. -/
def ofText (t : Text) : Number := (ofLiteral? t.trim.units).getD .nan

end Number
end ConfTree
