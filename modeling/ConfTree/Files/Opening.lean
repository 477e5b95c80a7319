import ConfTree.Configuration
import ConfTree.Files.Units

/-!
# Configurations in files

A configuration can be read from a file. Its units are then the files around it, unless another
source of units is given.
-/
namespace ConfTree.Configuration

open StoreM

/-- Makes a configuration from a file. -/
def openFile (host : Host) (files : Snapshot) (options : Options) (file : Text) : StoreM Unit := do
  let content := do FileContent.read file (← files.read file)
  match content with
  | .error failure => throwFailure failure
  | .ok raw =>
    let settings ← construct (Settings.ofOptions options.settings)
    let directory := ((Path.root.resolve host.directory).resolve file).parent
    let units : UnitDirectory := ⟨directory,files,settings.unitExtensions⟩
    create host { options with loader := some (options.loader.getD units.load) } raw

end ConfTree.Configuration
