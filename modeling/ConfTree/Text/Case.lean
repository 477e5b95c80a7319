import ConfTree.Text.CaseTable

/-!
# Letter case

Upper and lower case by Unicode's full mappings: one code point may become several, and a capital
sigma at the end of a word has a lower-case form of its own.
-/
namespace ConfTree.Text

namespace Case

/-- The mapped code point, given by the row that covers it; itself if none does. -/
def shifted (rows : List Row) (n : Nat) : Nat :=
  match rows.find? fun r => r.covers n with
  | some r => ((n : Int) + r.shift).toNat
  | none => n

/-- The code points that one code point becomes. -/
def mapped (rows : List Row) (sequences : List (Nat × List Nat)) (n : Nat) : List Nat :=
  match sequences.lookup n with
  | some several => several
  | none => [shifted rows n]

def inRanges (ranges : List (Nat × Nat)) (n : Nat) : Bool :=
  ranges.any fun r => r.1 ≤ n && n ≤ r.2

/-- Whether the first code point that is not passed over has case. -/
def meetsCased (points : List Nat) : Bool :=
  match points.dropWhile (inRanges ignoredRanges) with
  | [] => false
  | n :: _ => inRanges casedRanges n

/-- The lower-case forms, `before` holding the code points already passed, last first. -/
def lowered (before : List Nat) : List Nat → List Nat
  | [] => []
  | n :: rest =>
    (if n = 0x3A3 then
      [if meetsCased before && !meetsCased rest then 0x3C2 else 0x3C3]
    else mapped lowerRows lowerSequences n) ++ lowered (n :: before) rest

end Case

/-- The numbers of the text's code points. -/
def points (t : Text) : List Nat := (codePointsOf t.units).map codePointValue

/-- The text with the given code points. -/
def ofPoints (ns : List Nat) : Text := ⟨ns.flatMap unitsOfCodePoint⟩

/-- The text in capitals. -/
def upper (t : Text) : Text := ofPoints (t.points.flatMap (Case.mapped Case.upperRows Case.upperSequences))

/-- The text in small letters. -/
def lower (t : Text) : Text := ofPoints (Case.lowered [] t.points)

end ConfTree.Text
