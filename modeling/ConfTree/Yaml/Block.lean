import ConfTree.Text.Basic

/-!
# Scalars written as blocks

A block begins with a header line that says whether its text ends with line ends. Its lines are
indented. In a wrapped block long lines are broken at single spaces, and a line end of the text is
written twice where breaking could hide it.
-/
namespace ConfTree.Yaml

/-- The units of a line. -/
abbrev Line := List CodeUnit

/-- Whether a line is indented within the block; such a line is not broken. -/
def isIndented (line : Line) : Bool := line.head?.any fun (u : CodeUnit) => u == ' '

/-- The header after the mark of a block: the indentation, if the text begins with a space, then a
minus if it does not end with a line end, or a plus if it ends with more than one. -/
def blockHeader (t : Text) : Text :=
  let isBreak (u : CodeUnit) : Bool := u == '\n'
  let indentation : Text := if isIndented (t.units.dropWhile isBreak) then "2" else ""
  let ends := t.units.reverse.takeWhile isBreak
  let chomping : Text :=
    if ends.isEmpty then "-" else if ends.length = 1 && 1 < t.length then "" else "+"
  .concat [indentation,chomping,"\n"]

/-- Indents each line that is not empty. -/
def indented (width : Nat) (t : Text) : Text :=
  .join "\n" ((t.splitOn '\n').map fun line =>
    if line.isEmpty then line else .replicate width " " ++ line)

/-- The text without a line end that it ends with. -/
def withoutLastBreak (t : Text) : Text :=
  match t.units.reverse with
  | u :: rest => if u == '\n' then ⟨rest.reverse⟩ else t
  | [] => t

/-! ## Breaking lines -/

/-- The places of a line, from `i` on, where a single space can give way to a line end. -/
def breakPlaces (i : Nat) : List CodeUnit → List Nat
  | u :: v :: rest =>
    if u == ' ' && v != ' ' then i :: breakPlaces (i + 1) (v :: rest) else breakPlaces (i + 1) (v :: rest)
  | _ => []

/-- The part of a line between two places. -/
def slice (line : Line) (start stop : Nat) : Text := ⟨(line.drop start).take (stop - start)⟩

/-- How far the breaking of a line has come: the pieces so far, where the next piece starts, and the
last place passed. -/
structure Breaking where
  pieces : List Text
  start : Nat
  current : Nat

/-- Takes note of a place, and ends a piece before it if it lies too far on. -/
def Breaking.pass (line : Line) (width : Nat) (b : Breaking) (place : Nat) : Breaking :=
  if place - b.start > width then
    let stop := if b.start < b.current then b.current else place
    ⟨b.pieces ++ [slice line b.start stop],stop + 1,place⟩
  else { b with current := place }

/-- The pieces that a line is broken into: each as long as the width allows, or else as short as its
spaces allow. -/
def brokenLine (width : Nat) (line : Line) : Text :=
  if isIndented line then ⟨line⟩
  else
    let b := (breakPlaces 0 line).foldl (Breaking.pass line width) ⟨[],0,0⟩
    let last :=
      if line.length - b.start > width && b.start < b.current then
        [slice line b.start b.current,slice line (b.current + 1) line.length]
      else [slice line b.start line.length]
    .join "\n" (b.pieces ++ last)

/-- The lines after a line, each with the line ends before it; `breaks` line ends come before the first
of them, and `keeps` says that the last line was indented or that there was none. -/
def brokenLines (width : Nat) (keeps : Bool) (breaks : Nat) : List Text → List Text
  | [] => []
  | [line] => if line.isEmpty then [.replicate breaks "\n"] else written line
  | line :: rest =>
    if line.isEmpty then brokenLines width keeps (breaks + 1) rest
    else written line ++ brokenLines width (isIndented line.units) 1 rest
where
  written (line : Text) : List Text :=
    let extra := if keeps || isIndented line.units then 0 else 1
    [.replicate (breaks + extra) "\n",brokenLine width line.units]

/-- A text with its long lines broken. -/
def wrapped (width : Nat) (t : Text) : Text :=
  match t.splitOn '\n' with
  | [] => .empty
  | first :: rest =>
    let keeps := first.isEmpty || isIndented first.units
    brokenLine width first.units ++ .concat (brokenLines width keeps 1 rest)

end ConfTree.Yaml
