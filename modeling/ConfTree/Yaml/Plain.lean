import ConfTree.Yaml.Place

/-!
# Plain scalars

A scalar without quotes goes on up to a colon before a gap, a comment, the end of its node, or inside
brackets up to a mark of theirs. It goes on in lines that are indented far enough; line ends in it
are folded.
-/
namespace ConfTree.Yaml

open Scan

/-- The marks that no plain scalar begins with. -/
def isIndicator (u : CodeUnit) : Bool :=
  isBracketMark u || u == '#' || u == '&' || u == '*' || u == '!' || u == '|' || u == '>' || u == '\'' ||
    u == '"' || u == '%' || u == '@' || u.toNat == 0x60

/-- Whether a mark stands apart from what follows it. -/
def standsApart (inBrackets : Bool) (after : List CodeUnit) : Bool :=
  after.head?.any fun u => isGap u || (inBrackets && isBracketMark u)

/-- Whether a plain scalar can begin here. -/
def beginsPlain (inBrackets : Bool) : List CodeUnit → Bool
  | [] => false
  | u :: after =>
    if isGap u || isIndicator u then false
    else if u == '?' || u == '-' then !standsApart inBrackets after
    else true

/-- The units of a plain scalar up to the end of the line, or up to where it stops before. -/
def plainLine (inBrackets : Bool) (afterSpace : Bool) : List CodeUnit → List CodeUnit
  | [] => []
  | u :: after =>
    if isBreak u || (u == ':' && standsApart inBrackets after) || (u == '#' && afterSpace) ||
        (inBrackets && isBracketMark u) then []
    else u :: plainLine inBrackets (isSpace u) after

/-- A unit that no plain scalar holds: a control unit, or one that is no character. -/
def isUnprintable (u : CodeUnit) : Bool :=
  (u < 0x20 && u != '\t') || (0x7F ≤ u && u ≤ 0x9F && u != 0x85) || 0xFFFE ≤ u

/-- Whether a text holds nothing but what can be printed. -/
def isPrintable (us : List CodeUnit) : Bool :=
  (Text.codePointsOf us).all fun
    | [u] => !(isUnprintable u || u.isHigh || u.isLow)
    | _ => true

/-- The units without space at their end. -/
def withoutTrailingSpace (us : List CodeUnit) : List CodeUnit := (us.reverse.dropWhile isSpace).reverse

/-- The part of a plain scalar in this line, without the space at its end; empty if it has none. -/
def plainPart (inBrackets afterSpace : Bool) : Scan (List CodeUnit) := do
  if ← atBoundary then return []
  let line := plainLine inBrackets afterSpace (← get).rest
  advance line.length
  let part := withoutTrailingSpace line
  if isPrintable part then return part else failure

/-- The lines of a plain scalar after its first, in so many steps at most. Each is indented by
`indent` at least. -/
def plainLines (indent : Nat) (inBrackets : Bool) : Nat → Scan (List CodeUnit)
  | 0 => failure
  | fuel + 1 => do
    let stop ← get
    if !stop.rest.head?.any isBreak then return []
    let breaks ← skip false
    if (← spot).indent < indent then
      set stop
      return []
    let part ← plainPart inBrackets true
    if part.isEmpty then return []
    return folded breaks ++ part ++ (← plainLines indent inBrackets fuel)

/-- A plain scalar, if one begins here. -/
def plainScalar? (indent : Nat) (inBrackets : Bool) : Scan (Option Text) := do
  if !beginsPlain inBrackets (← get).rest then return none
  let first ← plainPart inBrackets false
  if first.isEmpty then return none
  return some ⟨first ++ (← plainLines indent inBrackets ((← get).rest.length + 1))⟩

end ConfTree.Yaml
