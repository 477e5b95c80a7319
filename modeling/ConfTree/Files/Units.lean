import ConfTree.Files.Content
import ConfTree.Files.Snapshot
import ConfTree.Tree.Unit

/-!
# Units in files

A unit is a file below a directory, at the path that its name writes. A name without one of the known
extensions is tried with each of them in order.
-/
namespace ConfTree

/-- A directory of units. -/
structure UnitDirectory where
  base : Path
  files : Snapshot
  /-- tried in order -/
  extensions : List Text

namespace UnitDirectory

/-- The paths at which a unit is looked for. -/
def candidates (d : UnitDirectory) (unit : Text) : Except Cause (List Text) := do
  let path := (d.base.resolve (← UnitName.validate unit)).text
  if d.extensions.contains (Path.extension unit) then return [path]
  else return d.extensions.map fun extension => path ++ extension

/-- The text of the file at a written path, unless it is a directory. -/
def fileAt? (d : UnitDirectory) (candidate : Text) : Option Text :=
  let p := Path.root.resolve candidate
  if d.files.isDirectory p then none else d.files.textAt? p

/-- The content of a unit: that of the first file found. -/
def load (d : UnitDirectory) (unit : Text) : Except Failure Value := do
  let candidates ← (d.candidates unit).mapError .cause
  let found := candidates.findSome? fun candidate => (d.fileAt? candidate).map fun text => (candidate,text)
  match found with
  | some (candidate,text) => FileContent.read candidate text
  | none => throw (.cause (.unitNotFound unit candidates))

end UnitDirectory
end ConfTree
