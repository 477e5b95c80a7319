import ConfTree.Output.Shape
import ConfTree.Text.Quote
import ConfTree.Yaml.Block
import ConfTree.Yaml.Style

/-!
# Writing YAML

Collections are written as blocks, a level being two spaces; a sequence in a mapping is one level
deeper, and a collection in a sequence begins in the line of its dash. Empty collections are closed.
What has no value is null in a list and left out of a record; what has no form is refused.
-/
namespace ConfTree.Yaml

/-! ## Scalars -/

/-- A finite number that is no integer. A point comes before the exponent in any case. -/
def fractionText (n : Number) : Text :=
  let isBeforeExponent (u : CodeUnit) : Bool := u.isDigit || u == '-'
  let (whole,rest) := n.text.units.span isBeforeExponent
  if rest.head?.any (fun (u : CodeUnit) => u == 'e') then
    let point : CodeUnit := '.'
    ⟨whole ++ point :: rest⟩
  else n.text

def numberText (n : Number) : Text :=
  match n with
  | .nan => ".nan"
  | .infinite negative => if negative then "-.inf" else ".inf"
  | .negZero => "-0.0"
  | _ => if n.isInteger then n.text else fractionText n

/-- The escapes that have a letter. -/
def letterEscapes : List (Nat × Text) :=
  [(0x00,"\\0"),(0x07,"\\a"),(0x08,"\\b"),(0x09,"\\t"),(0x0A,"\\n"),(0x0B,"\\v"),(0x0C,"\\f"),
    (0x0D,"\\r"),(0x1B,"\\e"),(0x22,"\\\""),(0x5C,"\\\\"),(0x85,"\\N"),(0xA0,"\\_"),
    (0x2028,"\\L"),(0x2029,"\\P")]

/-- So many hexadecimal digits. -/
def hexDigits (count n : Nat) : Text :=
  let digits := (Nat.toDigits 16 n).map fun c => CodeUnit.ofChar c.toUpper
  ⟨List.replicate (count - digits.length) 0x30 ++ digits⟩

/-- A code point in double quotes. -/
def quotedPoint (units : List CodeUnit) : Text :=
  let c := Text.codePointValue units
  match letterEscapes.lookup c with
  | some e => e
  | none =>
    if isWritable c then ⟨units⟩
    else if c ≤ 0xFF then ("\\x" : Text) ++ hexDigits 2 c
    else ("\\u" : Text) ++ hexDigits 4 c

/-- A text with each quote written twice. -/
def doubledQuotes (t : Text) : Text :=
  ⟨t.units.flatMap fun (u : CodeUnit) => if u == '\'' then [u,u] else [u]⟩

/-- A text at a level. Lines are 80 units long at most, indentation included, but 40 units in any case. -/
def scalarText (level : Nat) (isKey : Bool) (t : Text) : Text :=
  if t.isEmpty then "''"
  else if oldBooleans.contains t || accepts base60 t then t.quoted
  else
    let indent := 2 * max 1 level
    let width := max 40 (80 - indent)
    match styleOf isKey width t with
    | .plain => t
    | .single => (doubledQuotes t).quoted
    | .double => .concat ["\"",.concat ((Text.codePointsOf t.units).map quotedPoint),"\""]
    | .literal => .concat ["|",blockHeader t,withoutLastBreak (indented indent t)]
    | .wrapped => .concat [">",blockHeader t,withoutLastBreak (indented indent (wrapped width t))]

/-! ## Nodes -/

/-- The start of a line at a level. -/
def newLine (level : Nat) : Text := ("\n" : Text) ++ .replicate (2 * level) " "

/-- Entries, each in a line at a level; a compact block begins in the line that it stands in. -/
def entryLines (level : Nat) (compact : Bool) : List Text → Text
  | [] => .empty
  | first :: rest =>
    let line (entry : Text) : Text := newLine level ++ entry
    .concat ((if compact then first else line first) :: rest.map line)

/-- A mark and what follows it, in the same line unless it begins a line of its own. -/
def marked (mark : Text) (t : Text) : Text :=
  let startsLine := t.units.head?.any fun (u : CodeUnit) => u == '\n'
  .concat [mark,if startsLine then "" else " ",t]

/-- Whether a key is so long that it is set apart with a question mark. -/
def isLongKey (key : Text) : Bool := 1024 < key.length

mutual

/-- The text of a shape at a level; none if there is no value. -/
def write? (level : Nat) (compact : Bool) : Shape → Except Text (Option Text)
  | .null => .ok (some "null")
  | .bool b => .ok (some (Value.boolText b))
  | .number n => .ok (some (numberText n))
  | .text t => .ok (some (scalarText level false t))
  | .missing => .ok none
  | .barred type => .error (.concat ["unacceptable kind of an object to dump [object ",type,"]"])
  | .cycle _ => .error "Maximum call stack size exceeded"
  | .list items => do
    let lines ← writeItems (level + 1) items
    return some (if lines.isEmpty then "[]" else entryLines level compact lines)
  | .record pairs => do
    let lines ← writePairs level pairs
    return some (if lines.isEmpty then "\x7b\x7d" else entryLines level compact lines)

def writeItems (level : Nat) : List Shape → Except Text (List Text)
  | [] => .ok []
  | item :: rest => do
    let first ← write? level true item
    return marked "-" (first.getD "null") :: (← writeItems level rest)

def writePairs (level : Nat) : List (Text × Shape) → Except Text (List Text)
  | [] => .ok []
  | (key,item) :: rest => do
    let keyText := scalarText (level + 1) true key
    let start : Text :=
      if isLongKey keyText then .concat ["? ",keyText,newLine level] else keyText
    match ← write? (level + 1) (isLongKey keyText) item with
    | some t => return marked (.concat [start,":"]) t :: (← writePairs level rest)
    | none => writePairs level rest

end

/-- The lines of a shape; nothing if there is no value. -/
def write (shape : Shape) : Except Text Text := do
  match ← write? 0 true shape with
  | some t => return t ++ ("\n" : Text)
  | none => return .empty

end ConfTree.Yaml
