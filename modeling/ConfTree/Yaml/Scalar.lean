import ConfTree.Number.Decimal
import ConfTree.Value.Basic

/-!
# What plain scalars stand for

A scalar without quotes stands for null, a boolean or a number if it is spelled like one, and for
its text otherwise. Integers may have a base mark, and digits may be set apart by underscores. Dates
and the words `yes` and `no` are texts.
-/
namespace ConfTree.Yaml

/-- The units without underscores. -/
def withoutUnderscores (us : List CodeUnit) : List CodeUnit := us.filter fun (u : CodeUnit) => u != '_'

def isNull (t : Text) : Bool := t = "~" || t = "null" || t = "Null" || t = "NULL"

def bool? (t : Text) : Option Bool :=
  if t = "true" || t = "True" || t = "TRUE" then some true
  else if t = "false" || t = "False" || t = "FALSE" then some false
  else none

/-! ## Integers -/

/-- A digit of a base. -/
def isDigitOf (base : Nat) (u : CodeUnit) : Bool := u.hexValue?.any (· < base)

/-- Digits of a base, with underscores anywhere but at the end. -/
def areDigits (base : Nat) (us : List CodeUnit) : Bool :=
  let isLast (u : CodeUnit) : Bool := isDigitOf base u
  us.all (fun u => u == '_' || isDigitOf base u) && us.getLast?.any isLast

/-- The base that a letter after a zero marks. -/
def baseOf? (u : CodeUnit) : Option Nat :=
  if u == 'b' then some 2 else if u == 'o' then some 8 else if u == 'x' then some 16 else none

/-- The digits of a base as a number. -/
def digitsOf? (base : Nat) (us : List CodeUnit) : Option Nat :=
  if areDigits base us then some (Number.valueOfDigits base (withoutUnderscores us)) else none

/-- A natural number: decimal digits, not begun by an underscore nor followed by one after a leading
zero, or digits of another base after its mark. -/
def natural? : List CodeUnit → Option Nat
  | z :: mark :: digits =>
    if z == '0' then
      match baseOf? mark with
      | some base => digitsOf? base digits
      | none => if mark == '_' then none else digitsOf? 10 (mark :: digits)
    else if z == '_' then none
    else digitsOf? 10 (z :: mark :: digits)
  | us => digitsOf? 10 us

/-- An integer. Zero alone has no sign; any other spelling of zero keeps it. -/
def integer? (us : List CodeUnit) : Option Number :=
  let (negative,digits) := Number.splitSign us
  (natural? digits).map fun n =>
    let zero : List CodeUnit := [0x30]
    if n = 0 then (if withoutUnderscores digits = zero then .zero else Number.signedZero negative)
    else if negative then -Number.ofNat n else Number.ofNat n

/-! ## Other numbers -/

/-- An exponent, perhaps none: the letter, a sign, and digits to the end. -/
def isExponent : List CodeUnit → Bool
  | [] => true
  | e :: digits => (e == 'e' || e == 'E') && (Number.readExponent? digits).isSome

/-- A unit of a run of digits. -/
def inDigits (u : CodeUnit) : Bool := u.isDigit || u == '_'

/-- Whether the units spell a decimal without sign: digits with a point among or after them, or a
point and digits. -/
def isDecimal (us : List CodeUnit) : Bool :=
  match us with
  | [] => false
  | u :: rest =>
    if u == '.' then
      let (digits,exponent) := rest.span inDigits
      !digits.isEmpty && isExponent exponent
    else
      let (_,afterWhole) := rest.span inDigits
      let exponent := match afterWhole with
        | point :: fraction => if point == '.' then fraction.dropWhile inDigits else afterWhole
        | [] => []
      u.isDigit && isExponent exponent

/-- A word after a point, in one of its three cases. -/
def isPointWord (lower title upper : Text) (us : List CodeUnit) : Bool :=
  us = lower.units || us = title.units || us = upper.units

/-- Any number that is spelled as no integer. A decimal that begins with its point has no sign. -/
def decimal? (us : List CodeUnit) : Option Number :=
  let (negative,rest) := Number.splitSign us
  let signed := rest.length < us.length
  let beginsWithPoint := rest.head?.any fun (u : CodeUnit) => u == '.'
  let endsOpen := us.getLast?.any fun (u : CodeUnit) => u == '_'
  if isPointWord ".inf" ".Inf" ".INF" rest then some (.infinite negative)
  else if isPointWord ".nan" ".NaN" ".NAN" us then some .nan
  else if endsOpen || (signed && beginsWithPoint) || !isDecimal rest then none
  else some ((Number.readDecimal? negative (withoutUnderscores rest)).getD .nan)

/-- What a plain scalar stands for. -/
def plainValue (t : Text) : Value :=
  if isNull t then .null
  else match bool? t with
    | some b => .bool b
    | none =>
      match integer? t.units with
      | some n => .number n
      | none =>
        match decimal? t.units with
        | some n => .number n
        | none => .text t

end ConfTree.Yaml
