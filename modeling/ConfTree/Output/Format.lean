import ConfTree.Fault.Basic
import ConfTree.Json.Write
import ConfTree.Yaml.Write

/-!
# Output formats

The notations that a resolved value can be printed in.
-/
namespace ConfTree

inductive OutputFormat where
  | json | yaml
deriving DecidableEq

namespace OutputFormat

/-- The format of a name. -/
def ofName (name : Text) : Except ConstructionIssue OutputFormat :=
  if name = "json" then .ok .json
  else if name = "yaml" then .ok .yaml
  else .error (.outputFormat name)

/-- The text of a value in a tree with a root of a kind, or a report of why it has none. -/
def write (format : OutputFormat) (root : NodeKind) (v : Value) : Except Text Text :=
  match format with
  | .json => Json.write (.ofValue root v)
  | .yaml => Yaml.write (.ofValue root v)

end OutputFormat
end ConfTree
