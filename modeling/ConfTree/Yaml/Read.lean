import ConfTree.Yaml.Node

/-!
# Reading YAML

A text holds one document, or none, which counts as null. A document may begin with `---` and end
with `...`. Collections, quoted and plain scalars and comments are read; directives, tags, anchors,
literal blocks and keys set apart are not.
-/
namespace ConfTree.Yaml

open Scan

/-- Line ends written as one unit each. -/
def withPlainBreaks : List CodeUnit → List CodeUnit
  | [] => []
  | [u] => if u == '\r' then [0x0A] else [u]
  | u :: v :: rest =>
    if u == '\r' then if v == '\n' then withPlainBreaks (v :: rest) else 0x0A :: withPlainBreaks (v :: rest)
    else u :: withPlainBreaks (v :: rest)

/-- The lines of a text, the last one ended too, and the byte order mark removed. -/
def linesOf (t : Text) : List CodeUnit :=
  let us := withPlainBreaks t.units
  let ended := if us.getLast?.all isBreak then us else us ++ [0x0A]
  match ended with
  | [] => []
  | u :: rest => if u == 0xFEFF then rest else u :: rest

/-- A document, up to the boundary after it. -/
def document (fuel : Nat) : Scan Value := do
  discard (skip true)
  let dash : CodeUnit := '-'
  if (← spot).indent = 0 && (← get).rest.take 3 = [dash,dash,dash] then
    advance 3
    discard (skip true)
  let v := (← blockNode? (← spot).indent fuel).getD .null
  discard (skip true)
  let point : CodeUnit := '.'
  if ← atBoundary then
    if (← next?) == some point then
      advance 3
      discard (skip true)
  return v

/-- The value that a text writes. Each unit takes a few steps at most. -/
def read? (t : Text) : Option Value :=
  let us := linesOf t
  if us.contains 0 then none
  else
    let start := (Place.skipFrom false .indentation 0 .start us).2
    match document (4 * us.length + 8) start with
    | some (v,stop) => if stop.rest.isEmpty then some v else none
    | none => none

end ConfTree.Yaml
