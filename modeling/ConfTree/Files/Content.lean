import ConfTree.Eval.Compute
import ConfTree.Files.Path
import ConfTree.Json.Read
import ConfTree.Yaml.Read

/-!
# Content of files

The extension of a file says how its content is written: JSON after `.json`, YAML in any other file.
-/
namespace ConfTree.FileContent

/-- The value that the text of a file writes. -/
def read? (file text : Text) : Option Value :=
  if Path.extension file = ".json" then Json.read? text else Yaml.read? text

/-- The value that the text of a file writes, or a refusal that names the file. -/
def read (file text : Text) : Except Failure Value :=
  match read? file text with
  | some v => .ok v
  | none => .error (.cause (.construction (.unparsable file) none))

end ConfTree.FileContent
