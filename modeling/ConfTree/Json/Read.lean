import ConfTree.Expr.Token
import ConfTree.Value.Pairs

/-!
# Reading JSON

A strict reader: one value between blanks, names in double quotes, no comma before a closing
bracket. Of two members with one name the later wins, at the place of the earlier.
-/
namespace ConfTree.Json

open Reader

/-- Reads with blanks after. -/
def beforeBlanks {α : Type} (r : Reader α) : Reader α := do
  let a ← r
  Token.blanks
  return a

/-- A mark, with blanks after. -/
def mark (expected : CodeUnit) : Reader Unit := beforeBlanks (unit expected)

/-! ## Scalars -/

/-- What the unit after a backslash stands for, unless it is `u`. -/
def shortEscape? (u : CodeUnit) : Option CodeUnit :=
  if u == '"' || u == '\\' || u == '/' then some u
  else if u == 'b' then some 0x08
  else if u == 'f' then some 0x0C
  else if u == 'n' then some 0x0A
  else if u == 'r' then some 0x0D
  else if u == 't' then some 0x09
  else none

/-- One unit of a quoted text, escaped or not. -/
def quotedUnit : Reader CodeUnit := do
  let u ← unitOf fun u => 0x20 ≤ u && u != '"'
  if u != '\\' then return u
  let escape ← unitOf fun _ => true
  if escape == 'u' then Token.hexUnit
  else match shortEscape? escape with
    | some u => return u
    | none => giveUp

/-- A text between double quotes. -/
def quotedText : Reader Text := do
  unit '"'
  let units ← many quotedUnit
  unit '"'
  return ⟨units⟩

/-- The digits before the point: zero alone, or a run that starts with another digit. -/
def wholeDigits : Reader Unit := do
  let first ← unitOf CodeUnit.isDigit
  if first != '0' then discard (unitsOf CodeUnit.isDigit)

/-- A number; a zero keeps its sign. -/
def number : Reader Number := do
  let literal : Reader Unit := do
    discard (maybe (unit '-'))
    wholeDigits
    discard (maybe do unit '.'; discard Token.digits)
    discard (maybe Token.exponent)
  let (_,source) ← withSource literal
  return Number.ofText source

/-- A word that stands for a value. -/
def constant (word : Text) (v : Value) : Reader Value := do
  literal word
  return v

def scalar : Reader Value :=
  orElse (.text <$> quotedText)
    (orElse (.number <$> number)
      (orElse (constant "true" (.bool true)) (orElse (constant "false" (.bool false)) (constant "null" .null))))

/-! ## Values -/

/-- Results with commas between them, at least one. -/
def separated {α : Type} (item : Reader α) : Reader (List α) := do
  let first ← item
  return first :: (← many do mark ','; item)

/-- Results with commas between them, perhaps none, between two marks. -/
def enclosed {α : Type} (opening closing : CodeUnit) (item : Reader α) : Reader (List α) := do
  mark opening
  let items ← maybe (separated item)
  mark closing
  return items.getD []

/-- A member of an object. -/
def member (value : Reader Value) : Reader (Text × Value) := do
  let name ← beforeBlanks quotedText
  mark ':'
  return (name,← value)

/-- A value nested at most as deep as given, with blanks after. -/
def value : Nat → Reader Value
  | 0 => giveUp
  | depth + 1 => beforeBlanks do
    match (← get).rest with
    | u :: _ =>
      if u == '[' then return .list 0 (← enclosed '[' ']' (value depth))
      else if u == '\x7b' then
        return .mapping 0 (Pairs.ofList (← enclosed '\x7b' '\x7d' (member (value depth))))
      else scalar
    | [] => giveUp

/-- The value that a text writes. It is nested no deeper than the text is long. -/
def read? (t : Text) : Option Value :=
  (runAll (do Token.blanks; value t.length) t).toOption

end ConfTree.Json
