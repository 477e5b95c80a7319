import ConfTree.CommandLine.Suggestion

/-!
# Arguments

The words of a command line: a command, its operands, and options anywhere between them. An option's
value follows it as a word of its own, after an equals sign, or right after its letter. From the first
option that the program itself does not know, words are left to the command.
-/
namespace ConfTree.CommandLine

/-- The options. -/
inductive Flag where
  | version | debug | address | format
deriving DecidableEq

namespace Flag

def long : Flag → Text
  | version => "--version"
  | debug => "--debug"
  | address => "--address"
  | format => "--format"

def short? : Flag → Option Text
  | version => some "-V"
  | debug => none
  | address => some "-a"
  | format => some "-f"

/-- How messages show the option. -/
def shown : Flag → Text
  | version => "-V, --version"
  | debug => "--debug"
  | address => "-a, --address <ref>"
  | format => "-f, --format <format>"

def takesValue : Flag → Bool
  | version | debug => false
  | address | format => true

/-- Whether a word is the option. -/
def isWord (word : Text) (f : Flag) : Bool := f.long = word || f.short? = some word

end Flag

/-- The commands. -/
inductive CommandName where
  | resolve | tree
deriving DecidableEq

namespace CommandName

def name : CommandName → Text
  | resolve => "resolve"
  | tree => "tree"

/-- The command of a name. -/
def ofName? (name : Text) : Option CommandName := [resolve,tree].find? fun c => c.name = name

/-- The options that only the command knows. -/
def flags : CommandName → List Flag
  | resolve => [.address,.format]
  | tree => []

end CommandName

/-- The options of the program. -/
def programFlags : List Flag := [.version,.debug]

/-- Why no command is run. -/
inductive Stop where
  /-- the version was asked for -/
  | version
  /-- help was asked for, or is given because there is no command -/
  | help (asked : Bool)
  | missingFile
  | missingValue (flag : Flag)
  | unknownOption (word : Text) (known : List Text)
  | unknownCommand (word : Text)

namespace Stop

def longHelp : Text := "--help"

/-- The error that is reported; none if there is only something to print. -/
def message? : Stop → Option Text
  | version | help _ => none
  | missingFile => some "error: missing required argument 'file'"
  | missingValue flag => some (.concat ["error: option ",flag.shown.quoted," argument missing"])
  | unknownOption word known =>
    let dashed (t : Text) : Text := ("--" : Text) ++ t
    let suggestion : Text :=
      if word.startsWith "--" then Suggestion.line (word.drop 2) dashed (known.map (Text.drop 2)) else .empty
    some (.concat ["error: unknown option ",word.quoted,suggestion])
  | unknownCommand word =>
    let known := [CommandName.resolve.name,CommandName.tree.name,"help"]
    some (.concat ["error: unknown command ",word.quoted,Suggestion.line word id known])

end Stop

/-! ## Words -/

/-- Words sorted by what they are. -/
structure Words where
  operands : List Text
  /-- the first option that is not known, and the words after it that no known option takes -/
  unknown : List Text
  /-- the options given, with their values -/
  options : List (Flag × Text)

/-- Whether a word looks like an option. -/
def isOption (word : Text) : Bool := word.startsWith "-" && 1 < word.length

/-- The option that a word is joined with its value to: behind its letter, or behind an equals sign. -/
def joined? (known : List Flag) (word : Text) : Option (Flag × Text) :=
  let isEquals (u : CodeUnit) : Bool := u == '='
  if !word.startsWith "--" && 2 < word.length then
    (known.find? fun f => f.short? = some (word.take 2)).map fun f => (f,word.drop 2)
  else if word.startsWith "--" then
    let (name,rest) := (word.units.drop 2).span fun u => !isEquals u
    if name.isEmpty || rest.isEmpty then none
    else (known.find? fun f => f.takesValue && f.long.units.drop 2 = name).map fun f => (f,⟨rest.drop 1⟩)
  else none

/-- Adds an option to the words after it. -/
def addOption (flag : Flag) (value : Text) (after : Words) : Words :=
  { after with options := (flag,value) :: after.options }

/-- Adds a word that is no known option to the words after it. -/
def addWord (isUnknown : Bool) (word : Text) (after : Words) : Words :=
  if isUnknown then { after with unknown := word :: after.unknown }
  else { after with operands := word :: after.operands }

/-- Sorts words by the options that are known. `past` says that an unknown option came before. The
option for the version stops at once. -/
def sort (known : List Flag) (past : Bool) : List Text → Except Stop Words
  | [] => .ok ⟨[],[],[]⟩
  | word :: rest =>
    if word = "--" then .ok (if past then ⟨[],word :: rest,[]⟩ else ⟨rest,[],[]⟩)
    else if !isOption word then (sort known past rest).map (addWord past word)
    else match known.find? (Flag.isWord word) with
      | some .version => .error .version
      | some flag =>
        if !flag.takesValue then (sort known past rest).map (addOption flag .empty)
        else match rest with
          | value :: after => (sort known past after).map (addOption flag value)
          | [] => .error (.missingValue flag)
      | none =>
        match joined? known word with
        | some (.version,_) => .error .version
        | some (flag,value) => (sort known past rest).map (addOption flag value)
        | none => (sort known true rest).map (addWord true word)

/-! ## Commands -/

/-- What is to be done. -/
inductive Command where
  | resolve (address format : Text)
  | tree

/-- A command with the file it works on. -/
structure Invocation where
  command : Command
  file : Text
  overrides : List Text
  debug : Bool

/-- The value of an option, the last one counting. -/
def lastValue (options : List (Flag × Text)) (flag : Flag) (fallback : Text) : Text :=
  (options.reverse.lookup flag).getD fallback

def asksForHelp (words : List Text) : Bool := words.any fun w => w = "-h" || w = Stop.longHelp

/-- The long forms of options, as suggestions know them. -/
def longForms (flags : List Flag) : List Text := flags.map Flag.long ++ [Stop.longHelp]

/-- The command that is left the words after its name. -/
def commandOf (name : CommandName) (debug : Bool) (operands unknown : List Text) : Except Stop Invocation := do
  let words ← sort name.flags false unknown
  if asksForHelp words.unknown then throw (.help true)
  if let word :: _ := words.unknown then
    throw (.unknownOption word (longForms name.flags ++ longForms programFlags))
  let command := match name with
    | .resolve => Command.resolve (lastValue words.options .address .empty) (lastValue words.options .format "json")
    | .tree => Command.tree
  match operands ++ words.operands with
  | file :: overrides => return ⟨command,file,overrides,debug⟩
  | [] => throw .missingFile

/-- What to do without a command. The word `help` asks for help, also with the name of a command. -/
def withoutCommand (operands unknown : List Text) : Stop :=
  match operands, unknown with
  | [], [] => .help false
  | word :: about, _ =>
    if word = "help" then .help (about.head?.all fun name => (CommandName.ofName? name).isSome)
    else if asksForHelp unknown then .help true
    else .unknownCommand word
  | [], word :: _ => if asksForHelp unknown then .help true else .unknownOption word (longForms programFlags)

/-- What the words of a command line ask for. -/
def parse (words : List Text) : Except Stop Invocation := do
  let sorted ← sort programFlags false words
  let debug := sorted.options.any fun o => o.1 = .debug
  match sorted.operands with
  | word :: operands =>
    match CommandName.ofName? word with
    | some name => commandOf name debug operands sorted.unknown
    | none => throw (withoutCommand sorted.operands sorted.unknown)
  | [] => throw (withoutCommand [] sorted.unknown)

end ConfTree.CommandLine
