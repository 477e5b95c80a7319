import ConfTree.Number.Decimal

/-!
# Powers

`x ** y` by logarithm and exponential in base two. The logarithm of `x` is kept as the sum of a
number of few bits and a small rest, so that its product with `y` loses almost nothing, and the
integer part of the product becomes the exponent of the result. Every step is an operation on
numbers, rounded as such; an integer power of an integer is exact where it can be.
-/
namespace ConfTree.Number

/-- The number that a decimal writes. -/
def decimal (s : String) : Number := ofText s

/-- The number cut after its `bits` leading significant bits. -/
def leading (bits : Nat) (x : Number) : Number :=
  let scale := Nat.pow 2 (x.magnitude.log2 + 1 - bits)
  ofRatio x.isNegative (x.magnitude / scale * scale) 1

/-- `x * 2 ^ n`. -/
def scaleBy (x : Number) (n : Int) : Number :=
  if n < 0 then ofRatio x.isNegative x.magnitude (Nat.pow 2 (-n).toNat)
  else ofRatio x.isNegative (x.magnitude * Nat.pow 2 n.toNat) 1

/-- The value of a polynomial, coefficients of high degree innermost. -/
def horner (x : Number) : List Number → Number
  | [] => zero
  | [c] => c
  | c :: rest => c + x * horner x rest

/-- The square root rounded toward zero. -/
def natSqrt (n : Nat) : Nat :=
  (List.range (n.log2 / 2 + 1)).foldr (fun bit r =>
    let candidate := r + Nat.pow 2 bit
    if candidate * candidate ≤ n then candidate else r) 0

/-- The square root of a positive number, taken to 60 bits more than a number has and rounded. -/
def sqrt (x : Number) : Number :=
  let m := x.magnitude * stepsPerOne * Nat.pow 4 60
  let r := natSqrt m
  -- an inexact root keeps a last bit, so that rounding sees which side it lies on
  let sticky := if r * r = m then 0 else 1
  ofRatio false (2 * r + sticky) (Nat.pow 2 61)

namespace Power

private def seriesL : List Number :=
  [decimal "5.99999999999994648725e-01",decimal "4.28571428578550184252e-01",
    decimal "3.33333329818377432918e-01",decimal "2.72728123808534006489e-01",
    decimal "2.30660745775561754067e-01",decimal "2.06975017800338417784e-01"]

private def seriesP : List Number :=
  [decimal "1.66666666666666019037e-01",decimal "-2.77777777770155933842e-03",
    decimal "6.61375632143793436117e-05",decimal "-1.65339022054652515390e-06",
    decimal "4.13813679705723846039e-08"]

private def one : Number := ofNat 1
private def two : Number := ofNat 2
private def three : Number := ofNat 3

/-- The natural logarithm of two, and its split. -/
private def ln2 : Number := decimal "6.93147180559945286227e-01"
private def ln2High : Number := decimal "6.93147182464599609375e-01"
private def ln2Low : Number := decimal "-1.90465429995776804525e-09"

/-- Two thirds of the reciprocal of the logarithm of two, and its split. -/
private def third : Number := decimal "9.61796693925975554329e-01"
private def thirdHigh : Number := decimal "9.61796700954437255859e-01"
private def thirdLow : Number := decimal "-7.02846165095275826516e-09"

/-- The reciprocal of the logarithm of two, and its split. -/
private def perLn2 : Number := decimal "1.44269504088896338700e+00"
private def perLn2High : Number := decimal "1.44269502162933349609e+00"
private def perLn2Low : Number := decimal "1.92596299112661746887e-08"

/-- How far a product at the limit may exceed it and still be finite. -/
private def overflowSlack : Number := decimal "8.0085662595372944372e-17"

/-- Whether `x` is below `y`. -/
private def less (x y : Number) : Bool := order x y == some .lt

/-- Adds the rest `low` to `high` and cuts the sum after 21 bits; the second part is what is lost. -/
private def split (high low : Number) : Number × Number :=
  let t := leading 21 (high + low)
  (t,low - (t - high))

/-- A breakpoint of the logarithm, its logarithm in base two, and the rest of that. -/
private structure Breakpoint where
  point : Number
  logHigh : Number
  logLow : Number

private def unitPoint : Breakpoint := ⟨one,zero,zero⟩

private def threeHalves : Breakpoint :=
  ⟨decimal "1.5",decimal "5.84962487220764160156e-01",decimal "1.35003920212974897128e-08"⟩

/-- The exponent of a positive number, its significand near one, and the breakpoint for it. -/
private def normalize (x : Number) : Int × Number × Breakpoint :=
  let bits := x.magnitude.log2
  let significand := ofRatio false (x.magnitude * stepsPerOne) (Nat.pow 2 bits)
  let fraction := x.magnitude * Nat.pow 2 20 / Nat.pow 2 bits - Nat.pow 2 20
  let exponent : Int := bits - 1074
  if fraction ≤ 0x3988E then (exponent,significand,unitPoint)
  else if fraction < 0xBB67A then (exponent,significand,threeHalves)
  else (exponent + 1,scaleBy significand (-1),unitPoint)

/-- The logarithm in base two of a positive number, as a leading part and a rest. -/
private def log2 (x : Number) : Number × Number :=
  let (n,a,b) := normalize x
  let u := a - b.point
  let v := one / (a + b.point)
  let s := u * v
  let sHigh := leading 21 s
  let tHigh := leading 20 a + b.point
  let tLow := a - (tHigh - b.point)
  let sLow := v * ((u - sHigh * tHigh) - sHigh * tLow)
  let square := s * s
  let r := square * square * horner square seriesL + sLow * (sHigh + s)
  let squareHigh := sHigh * sHigh
  let cubeHigh := leading 21 (three + squareHigh + r)
  let cubeLow := r - ((cubeHigh - three) - squareHigh)
  let (pHigh,pLow) := split (sHigh * cubeHigh) (sLow * cubeHigh + cubeLow * s)
  let zHigh := thirdHigh * pHigh
  let zLow := thirdLow * pHigh + pLow * third + b.logLow
  let whole := ofInt n
  let high := leading 21 (((zHigh + zLow) + b.logHigh) + whole)
  (high,zLow - (((high - whole) - b.logHigh) - zHigh))

/-- The same for a number within `2 ^ -20` of one, from the first terms of the series. -/
private def log2NearOne (x : Number) : Number × Number :=
  let t := x - one
  let w := (t * t) * (decimal "0.5" - t * (decimal "0.3333333333333333333333" - t * decimal "0.25"))
  split (perLn2High * t) (t * perLn2Low - w * perLn2)

/-- Two to the power `high + low`, which lies between -1075 and 1024. The rest `w` is taken into the
divisor, so a result may be off by one in its last place. -/
private def exp2 (high low : Number) : Number :=
  let z := low + high
  let n : Int :=
    if less (abs z) (decimal "0.5" + scaleBy one (-21)) then 0
    else
      let size := (2 * z.magnitude + stepsPerOne) / (2 * stepsPerOne)
      if z.isNegative then -size else size
  let high := high - ofInt n
  let t := leading 21 (low + high)
  let u := t * ln2High
  let v := (low - (t - high)) * ln2 + t * ln2Low
  let z := u + v
  let w := v - (z - u)
  let square := z * z
  let t1 := z - square * horner square seriesP
  let r := (z * t1) / ((t1 - two) - (w + z * w))
  scaleBy (one - (r - z)) n

/-- `x ** y` for a positive finite `x` and a finite `y`. -/
private def positive (x y : Number) : Number :=
  let step := scaleBy one (-20)
  -- an exponent is huge or vast when its 21 leading bits exceed `2 ^ 31` or `2 ^ 64`
  let huge := scaleBy (one + step) 31
  let vast := scaleBy (one + step) 64
  let grows := x.magnitude > stepsPerOne
  let extreme := if grows != y.isNegative then infinite false else zero
  let far := less x (one - scaleBy step (-1)) || !less x (one + step)
  if !less (abs y) vast && x.magnitude != stepsPerOne then extreme
  else if !less (abs y) huge && far then extreme
  else
    let (high,low) := if less (abs y) huge then log2 x else log2NearOne x
    let yHigh := leading 21 y
    let pLow := (y - yHigh) * high + y * low
    let pHigh := yHigh * high
    let z := pLow + pHigh
    let top := ofNat 1024
    let bottom := ofInt (-1075)
    if less top z || (same z top && less (z - pHigh) (pLow + overflowSlack)) then infinite false
    else if less z bottom || (same z bottom && !less (z - pHigh) pLow) then zero
    else exp2 pHigh pLow

end Power

/-- Whether a number is an odd integer. -/
def isOdd (x : Number) : Bool :=
  match x.int? with
  | some i => i % 2 == 1
  | none => false

/-- The power. Anything to the power zero is one; one to an infinite power is not a number, nor is
a negative number to a power that is no integer. -/
def pow (x y : Number) : Number :=
  let size := x.abs
  let one := ofNat 1
  let flip (z : Number) : Number := if x.isNegative && y.isOdd then z.neg else z
  if y.isNaN then nan
  else if y.isZero then one
  else if x.isNaN then nan
  else if !y.isFinite then
    if same size one then nan
    else if (order size one == some .gt) != y.isNegative then infinite false
    else zero
  else if same y one then x
  else if same y one.neg then one / x
  else if same y (ofNat 2) then x * x
  else if same y (decimal "0.5") && !x.isNegative && x.isFinite && !x.isZero then sqrt x
  else if !x.isFinite || x.isZero || same size one then
    if same x one.neg && !y.isInteger then nan
    else flip (if y.isNegative then one / size else size)
  else if x.isNegative && !y.isInteger then nan
  else flip (Power.positive size y)

end ConfTree.Number
