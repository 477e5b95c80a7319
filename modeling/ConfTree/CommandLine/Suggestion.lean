import ConfTree.Text.Basic

/-!
# Suggestions

A word that is not known is compared with those that are. The distance of two words is the number of
units to insert, drop, change or exchange with their neighbour, no unit taking part twice; known words
that are near enough, and nearest of all, are suggested.
-/
namespace ConfTree.Suggestion

/-- The greatest distance of a suggestion. -/
def reach : Nat := 3

/-! ## Distance -/

/-- One row of the table of distances between the prefixes of two words. -/
abbrev Row := List Nat

/-- Fills the row for the prefixes that end with `u`, from the entry to the left of the rest on.
`before` is the unit before `u`; `previousUnit` is the unit before those left of the other word; `up`
is the row above from the entry on that stands to the left, and `upTwo` the row above that one, from
one entry further left. -/
def fillRow (u : CodeUnit) (before : Option CodeUnit) (left : Nat) (previousUnit : Option CodeUnit)
    (up : Row) (upTwo : Row) : List CodeUnit → Row
  | [] => []
  | v :: rest =>
    match up with
    | diagonal :: above :: upRest =>
      let changed := diagonal + (if u = v then 0 else 1)
      let least := min (min (above + 1) (left + 1)) changed
      let exchanged := match upTwo with
        | corner :: _ => if before = some v && previousUnit = some u then min least (corner + 1) else least
        | [] => least
      let nextTwo := if previousUnit.isSome then upTwo.tail else upTwo
      exchanged :: fillRow u before exchanged (some v) (above :: upRest) nextTwo rest
    | _ => []

/-- The rows for the units of a word, given the two rows before; the last of them. -/
def lastRow (other : List CodeUnit) (before : Option CodeUnit) (i : Nat) (up upTwo : Row) : List CodeUnit → Row
  | [] => up
  | u :: rest =>
    let row := (i + 1) :: fillRow u before (i + 1) none up upTwo other
    lastRow other (some u) (i + 1) row up rest

/-- The distance of two words. -/
def distance (a b : Text) : Nat :=
  (lastRow b.units none 0 (List.range (b.length + 1)) [] a.units).getLastD 0

/-- The distance of two words, or their greater length if their lengths alone put them out of reach. -/
def boundedDistance (a b : Text) : Nat :=
  if a.length - b.length + (b.length - a.length) > reach then max a.length b.length else distance a b

/-! ## Choice -/

/-- Whether more than two fifths of the longer word agree at a distance. -/
def isSimilar (word candidate : Text) (d : Nat) : Bool :=
  let longer := max word.length candidate.length
  2 * longer < 5 * (longer - d)

/-- The candidates near enough to a word, with their distances. -/
def near (word : Text) (candidates : List Text) : List (Text × Nat) :=
  (candidates.filter fun c => 1 < c.length).filterMap fun c =>
    let d := boundedDistance word c
    if isSimilar word c d && d ≤ reach then some (c,d) else none

/-- The nearest candidates, in alphabetical order. -/
def nearest (word : Text) (candidates : List Text) : List Text :=
  let found := near word candidates
  let least := found.foldl (fun acc p => min acc p.2) reach
  ((found.filter fun p => p.2 = least).map Prod.fst).mergeSort fun a b => a < b || a = b

/-- The line that suggests the nearest candidates; nothing if there are none. -/
def line (word : Text) (shown : Text → Text) (candidates : List Text) : Text :=
  match (nearest word candidates.eraseDups).map shown with
  | [] => .empty
  | [candidate] => .concat ["\n(Did you mean ",candidate,"?)"]
  | several => .concat ["\n(Did you mean one of ",.join ", " several,"?)"]

end ConfTree.Suggestion
