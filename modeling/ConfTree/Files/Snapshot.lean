import ConfTree.Eval.Compute
import ConfTree.Files.Path

/-!
# Snapshots of files

The files that a configuration can read, with their texts, at one moment. A directory is there when
some file lies below it.
-/
namespace ConfTree

/-- Files and their texts; of two files at one path the later counts. -/
structure Snapshot where
  files : List (Path × Text)

namespace Snapshot

/-- The files of written paths, relative ones taken from a directory. -/
def ofList (directory : Path) (written : List (Text × Text)) : Snapshot :=
  ⟨written.map fun p => (directory.resolve p.1,p.2)⟩

/-- The text of the file at a path. -/
def textAt? (s : Snapshot) (p : Path) : Option Text := s.files.reverse.lookup p

/-- Whether some file lies below a path. -/
def isDirectory (s : Snapshot) (p : Path) : Bool := s.files.any fun file => file.1.isBelow p

/-- The text of the file at a written path, a relative one taken from the root. -/
def read (s : Snapshot) (written : Text) : Except Failure Text :=
  match s.textAt? (Path.root.resolve written) with
  | some text => .ok text
  | none => .error (.foreign (.concat ["ENOENT: no such file or directory, open ",written.quoted]))

end Snapshot
end ConfTree
