import ConfTree.CommandLine.Arguments
import ConfTree.Fault.Report
import ConfTree.Files.Opening
import ConfTree.Output.Format
import ConfTree.Settings.Sources

/-!
# Running a command

A command opens a configuration from its file, with the settings of all sources and with overrides,
and prints the value or the outline of its tree. What it throws is reported, and the exit code is 1.
-/
namespace ConfTree.CommandLine

open StoreM

/-- What a command works with. -/
structure Surroundings where
  host : Host
  files : Snapshot
  /-- where settings come from, the project aside -/
  settings : SettingsSources
  /-- whether reports are coloured -/
  color : Bool

/-- What a run leaves: the exit code and what it printed. -/
structure Outcome where
  code : Nat
  stdout : Text
  stderr : Text

/-- The version of the program. -/
def version : Text := "0.4.0"

/-- How the program is called. -/
def usage : Text :=
  .join "\n"
    ["Usage: solconf [--debug] resolve [-a <ref>] [-f json|yaml] <file> [overrides...]",
      "       solconf [--debug] tree <file> [overrides...]",
      "       solconf --version",""]

variable (s : Surroundings)

/-- Makes the configuration of a file. -/
def openFile (file : Text) (overrides : List Text) : StoreM Unit := do
  let project := ((Path.root.resolve s.host.directory).resolve file).parent.text
  let settings ← Configuration.construct { s.settings with project }.load
  let options : Options :=
    ⟨overrides.map .text,[],Registry.standard 0,none,.mapping 0 settings.record⟩
  Configuration.openFile s.host s.files options file

/-- What a command prints. -/
def perform (i : Invocation) : StoreM Text := do
  match i.command with
  | .resolve address format => do
    let format ← Configuration.construct (OutputFormat.ofName format)
    openFile s i.file i.overrides
    let v ← Configuration.call s.host address
    match format.write (← kindOf (← Configuration.root)) v with
    | .ok t => return t
    | .error report => throw (.foreign report)
  | .tree => do
    openFile s i.file i.overrides
    return (← Configuration.describe s.host) ++ ("\n" : Text)

/-- The report of what a run threw, given the store it left. -/
def report (store : Store) : Thrown → Text
  | .foreign message => Report.ofMessage s.color message
  | .fault id =>
    match store.faults[id]? with
    | some fault => Report.ofFault s.color fault
    | none => .empty

/-- The outcome of an invocation. -/
def invoke (i : Invocation) : Outcome :=
  let failed (t : Text) : Outcome :=
    ⟨1,.empty,.concat [t,if i.debug then ("\n" : Text) ++ Report.trace else .empty,"\n"]⟩
  match perform s i (Store.empty 1) with
  | some (.ok t,_) => ⟨0,t,.empty⟩
  | some (.error thrown,store) => failed (report s store thrown)
  | none => failed (Report.ofMessage s.color "Maximum call stack size exceeded")

/-- The outcome of a run that came to no command. -/
def stopped (stop : Stop) : Outcome :=
  match stop with
  | .version => ⟨0,version ++ ("\n" : Text),.empty⟩
  | .help true => ⟨0,usage,.empty⟩
  | .help false => ⟨1,.empty,usage⟩
  | _ => ⟨1,.empty,stop.message?.getD .empty ++ ("\n" : Text)⟩

/-- The outcome for the words of a command line. -/
def run (words : List Text) : Outcome :=
  match parse words with
  | .ok i => invoke s i
  | .error stop => stopped stop

end ConfTree.CommandLine
