import ConfTree.Text.Basic

/-!
# Paths

An absolute path is the list of its segments. A written path starts at the root, or is taken
relative to a directory; `.` and empty segments stay where they are and `..` leads to the directory
above.
-/
namespace ConfTree

/-- An absolute path, by its segments from the root on. -/
structure Path where
  segments : List Text
deriving DecidableEq

namespace Path

def root : Path := ⟨[]⟩

/-- The path written from the root on. -/
def text (p : Path) : Text := ("/" : Text) ++ .join "/" p.segments

/-- The directory that holds the file; the root holds itself. -/
def parent (p : Path) : Path := ⟨p.segments.dropLast⟩

/-- One step from a directory. -/
def step (p : Path) (segment : Text) : Path :=
  if segment.isEmpty || segment = "." then p
  else if segment = ".." then p.parent
  else ⟨p.segments ++ [segment]⟩

/-- Where a written path leads from a directory. -/
def resolve (directory : Path) (written : Text) : Path :=
  (written.splitOn '/').foldl step (if written.startsWith "/" then root else directory)

/-- Whether the path lies somewhere below a directory. -/
def isBelow (p directory : Path) : Bool :=
  directory.segments.isPrefixOf p.segments && directory.segments.length < p.segments.length

/-! ## Written paths -/

/-- One step from a directory that is itself relative: what leads above its start is kept. -/
def relativeStep (segments : List Text) (segment : Text) : List Text :=
  if segment.isEmpty || segment = "." then segments
  else if segment = ".." && segments.getLast?.all (· == segment) then segments ++ [segment]
  else if segment = ".." then segments.dropLast
  else segments ++ [segment]

/-- The path of a file in a directory, as short as it can be written; it is relative if the
directory is. -/
def fileIn (directory file : Text) : Text :=
  if directory.startsWith "/" then ((root.resolve directory).step file).text
  else .join "/" (((directory.splitOn '/') ++ [file]).foldl relativeStep [])

/-- The last segment of a written path, slashes after it ignored. -/
def lastSegment (written : Text) : Text :=
  ((written.splitOn '/').filter fun segment => !segment.isEmpty).getLastD .empty

/-- The extension of a written path: from the last point of its last segment on, unless that segment
begins with it or is `..`. -/
def extension (written : Text) : Text :=
  let name := lastSegment written
  let (tail,beforeTail) := name.units.reverse.span fun (u : CodeUnit) => u != '.'
  match beforeTail with
  | point :: _ :: _ => if name = ".." then .empty else ⟨point :: tail.reverse⟩
  | _ => .empty

end Path
end ConfTree
