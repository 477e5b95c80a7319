import ConfTree.Files.Content
import ConfTree.Files.Snapshot
import ConfTree.Settings

/-!
# Where settings come from

Settings are the defaults, then those of the user, of the project and of the environment, each over
the ones before. A file that is missing or malformed sets nothing.
-/
namespace ConfTree

/-- Where settings are looked for. -/
structure SettingsSources where
  /-- the variables of the environment -/
  environment : List (Text × Text)
  /-- the working directory -/
  directory : Path
  /-- the directory of the user -/
  home : Text
  /-- the directory of the project -/
  project : Text
  files : Snapshot

namespace SettingsSources

/-- What the environment holds under a name. -/
def lookup? (s : SettingsSources) (name : Text) : Option Text := s.environment.lookup name

/-- The file of the user's settings. -/
def userFile (s : SettingsSources) : Text :=
  let configured := (s.lookup? "XDG_CONFIG_HOME").getD .empty
  Path.fileIn (if configured.isEmpty then Path.fileIn s.home ".config" else configured) "solconf.json"

/-- The file of the project's settings. -/
def projectFile (s : SettingsSources) : Text := Path.fileIn s.project "solconf.config.json"

/-- The layer of settings in a file. -/
def fileLayer (s : SettingsSources) (file : Text) : Except ConstructionIssue Settings.Layer :=
  match (s.files.textAt? (s.directory.resolve file)).bind Json.read? with
  | none => .ok []
  | some content => Settings.checkLayer file content

/-- The limit on expressions that the environment sets. -/
def lengthLayer (s : SettingsSources) : Except ConstructionIssue Settings.Layer :=
  match s.lookup? "SOLCONF_MAX_EXPRESSION_LENGTH" with
  | none => .ok []
  | some written =>
    let length := Number.ofText written
    if length.isInteger && !length.isNegative && !length.isZero then
      .ok [(.maxExpressionLength,.number length)]
    else .error (.lengthVariable written)

/-- What the environment says of overrides that match nothing. -/
def unusedLayer (s : SettingsSources) : Settings.Layer :=
  match s.lookup? "SOLCONF_FAIL_ON_UNUSED_OVERRIDES" with
  | none => []
  | some written => [(.failOnUnusedOverrides,.bool (written = "true" || written = "1"))]

/-- The settings of all sources. -/
def load (s : SettingsSources) : Except ConstructionIssue Settings := do
  let user ← s.fileLayer s.userFile
  let project ← s.fileLayer s.projectFile
  let length ← s.lengthLayer
  return (((Settings.defaults.withLayer user).withLayer project).withLayer length).withLayer s.unusedLayer

end SettingsSources
end ConfTree
