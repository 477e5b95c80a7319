import ConfTree.Expr.Reader
import ConfTree.Number.Decimal

/-!
# Tokens

The smallest parts of the expression language: blanks, names, numbers and quoted texts. Names and
keywords are ASCII; a quoted text takes any unit but a line end.
-/
namespace ConfTree.Token

open Reader

/-- A blank between tokens. -/
def isSpace (u : CodeUnit) : Bool := u == ' ' || u == '\t' || u == '\r' || u == '\n'

/-- Blanks, perhaps none. -/
def blanks : Reader Unit := discard (unitsOf isSpace)

/-- Reads with blanks before. -/
def afterBlanks {α : Type} (r : Reader α) : Reader α := do blanks; r

/-- The words that are no names. -/
def keywords : List Text := ["for","in","if","true","false","null"]

/-- A word that no longer word begins with. -/
def word (w : Text) : Reader Unit := do
  literal w
  notAhead CodeUnit.inName

/-- A name: a letter or underscore, then letters, underscores and digits; not a keyword. -/
def identifier : Reader Text := do
  let c ← get
  if keywords.contains ⟨c.rest.takeWhile CodeUnit.inName⟩ then giveUp
  let first ← unitOf CodeUnit.startsName
  let rest ← unitsOf CodeUnit.inName
  return ⟨first :: rest⟩

/-- Digits, at least one. -/
def digits : Reader (List CodeUnit) := units1Of CodeUnit.isDigit

def exponent : Reader Unit := do
  discard (unitOf fun u => u == 'e' || u == 'E')
  discard (maybe (unitOf fun u => u == '+' || u == '-'))
  discard digits

/-- A point and digits after it, perhaps none. -/
def fraction : Reader Unit := do
  unit '.'
  discard (maybe digits)

/-- A decimal number without sign. -/
def number : Reader Number := do
  let whole : Reader Unit := do
    discard digits
    discard (maybe fraction)
    discard (maybe exponent)
  let fractional : Reader Unit := do
    unit '.'
    discard digits
    discard (maybe exponent)
  let (_,source) ← withSource (orElse whole fractional)
  notAhead CodeUnit.inName
  return Number.ofText source

/-- The unit of four hexadecimal digits. -/
def hexUnit : Reader CodeUnit := do
  let isHex (u : CodeUnit) : Bool := u.hexValue?.isSome
  let a ← unitOf isHex
  let b ← unitOf isHex
  let c ← unitOf isHex
  let d ← unitOf isHex
  return (Number.valueOfDigits 16 [a,b,c,d]).toUInt16

/-- What stands after a backslash. -/
def escaped : Reader CodeUnit := do
  let u ← unitOf fun _ => true
  if u == 'n' then return '\n'
  else if u == 't' then return '\t'
  else if u == 'r' then return '\r'
  else if u == '0' then return 0
  else if u == 'u' then orElse hexUnit (pure u)
  else return u

/-- A unit of a quoted text. -/
def quotedUnit (quote : CodeUnit) : Reader CodeUnit :=
  orElse (unitOf fun u => u != quote && u != '\\' && u != '\r' && u != '\n') (do unit '\\'; escaped)

/-- A text between two quotes of a kind. -/
def quotedBy (quote : CodeUnit) : Reader Text := do
  unit quote
  let units ← many (quotedUnit quote)
  unit quote
  return ⟨units⟩

/-- A text between double or single quotes. -/
def quoted : Reader Text := orElse (quotedBy '"') (quotedBy '\'')

/-- An index in a target, in the form that numbers are written in. -/
def index : Reader Text := do
  return (Number.ofNat (Number.valueOfDigits 10 (← digits))).text

end ConfTree.Token
