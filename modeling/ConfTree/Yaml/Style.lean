import ConfTree.Expr.Reader
import ConfTree.Yaml.Scalar

/-!
# Styles of written scalars

A text is written without quotes if it then reads back as itself, in single quotes if it is one line,
as a block if it has several lines or a long one, and in double quotes if it holds something that
cannot be printed.
-/
namespace ConfTree.Yaml

/-- How a text is written. -/
inductive Style where
  | plain | single | double
  /-- a block that keeps its lines -/
  | literal
  /-- a block with long lines broken at spaces -/
  | wrapped
deriving DecidableEq

/-! ## Texts that would be read as something else -/

/-- The words for booleans that older readers know besides `true` and `false`. -/
def oldBooleans : List Text :=
  ["y","Y","yes","Yes","YES","on","On","ON","n","N","no","No","NO","off","Off","OFF"]

open Reader

/-- Whether a reader takes a whole text. -/
def accepts {α : Type} (r : Reader α) (t : Text) : Bool := (runAll r t).toOption.isSome

def sign : Reader Unit := discard (maybe (unitOf fun u => u == '+' || u == '-'))

def digit : Reader Unit := discard (unitOf CodeUnit.isDigit)

def twoDigits : Reader Unit := do digit; digit

def digitOrTwo : Reader Unit := do digit; discard (maybe digit)

/-- A number of base 60, as older readers know it: digits with colons between. -/
def base60 : Reader Unit := do
  sign
  let group : Reader Unit := do unit ':'; discard (units1Of inDigits)
  discard (units1Of inDigits)
  group
  discard (many group)
  discard (maybe do unit '.'; unitsOf inDigits)

/-- A date: year, month and day. -/
def date : Reader Unit := do
  twoDigits; twoDigits; unit '-'; twoDigits; unit '-'; twoDigits

def space (u : CodeUnit) : Bool := u == ' ' || u == '\t'

/-- A zone: the letter `Z`, or hours and perhaps minutes. -/
def zone : Reader Unit := do
  discard (unitsOf space)
  let hours : Reader Unit := do
    discard (unitOf fun u => u == '+' || u == '-')
    digitOrTwo
    discard (maybe do unit ':'; twoDigits)
  orElse (unit 'Z') hours

/-- A moment: a date, a time of day with perhaps a fraction, and perhaps a zone. -/
def moment : Reader Unit := do
  twoDigits; twoDigits; unit '-'; digitOrTwo; unit '-'; digitOrTwo
  orElse (discard (unitOf fun u => u == 'T' || u == 't')) (discard (units1Of space))
  digitOrTwo; unit ':'; twoDigits; unit ':'; twoDigits
  discard (maybe do unit '.'; unitsOf CodeUnit.isDigit)
  discard (maybe zone)

def isText : Value → Bool
  | .text _ => true
  | _ => false

/-- Whether a plain scalar of this text stands for something else, to a reader that knows dates and
merged mappings too. -/
def isAmbiguous (t : Text) : Bool :=
  !isText (plainValue t) || t = "<<" || accepts date t || accepts moment t

/-! ## Plain and printable texts -/

/-- A code point that is written as itself; the end of a line is none. -/
def isWritable (c : Nat) : Bool :=
  (0x20 ≤ c && c ≤ 0x7E) || (0xA1 ≤ c && c ≤ 0xD7FF && c != 0x2028 && c != 0x2029) ||
    (0xE000 ≤ c && c ≤ 0xFFFD && c != 0xFEFF) || 0x10000 ≤ c

/-- A code point that is written as itself and is no space. -/
def isSolid (c : Nat) : Bool := isWritable c && c != 0x20

/-- The marks that no plain scalar begins with when it is written. -/
def openingMarks : List Char :=
  ['-','?',':',',','[',']','\x7b','\x7d','#','&','*','!','|','=','>','\'','"','%','@','\x60']

/-- Whether a code point may stand in a plain scalar after another. -/
def isPlainAfter (previous : Option Nat) (c : Nat) : Bool :=
  let afterColon := previous == some ':'.toNat
  (isWritable c && c != '#'.toNat && !(afterColon && !isSolid c)) ||
    (previous.any isSolid && c == '#'.toNat) || (afterColon && isSolid c)

/-- Whether each code point may stand after the one before it. -/
def areInPlain (previous : Option Nat) : List Nat → Bool
  | [] => true
  | c :: rest => isPlainAfter previous c && areInPlain (some c) rest

/-- Whether code points can be written without quotes. -/
def isPlain (cs : List Nat) : Bool :=
  cs.head?.any (fun c => isSolid c && !openingMarks.any (fun m => m.toNat == c)) &&
    cs.getLast?.any (fun c => c != 0x20 && c != 0x09 && c != ':'.toNat) && areInPlain none cs

/-- The code points of a text. -/
def pointsOf (t : Text) : List Nat := (Text.codePointsOf t.units).map Text.codePointValue

/-- Whether a line is longer than a width and can be broken at a space. -/
def isTooLong (width : Nat) (line : Text) : Bool :=
  let blank : CodeUnit := ' '
  width < line.length && line.units.head? != some blank

/-- The style of a text that is not empty. A key stays in one line. -/
def styleOf (isKey : Bool) (width : Nat) (t : Text) : Style :=
  let cs := pointsOf t
  let hasLines := !isKey && cs.contains 0x0A
  let isLong := !isKey && (t.splitOn '\n').any (isTooLong width)
  if cs.any fun c => !isWritable c && (isKey || c != 0x0A) then .double
  else if isLong then .wrapped
  else if hasLines then .literal
  else if isPlain cs && !isAmbiguous t then .plain
  else .single

end ConfTree.Yaml
