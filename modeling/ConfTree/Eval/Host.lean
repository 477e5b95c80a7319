import ConfTree.Eval.Compute

/-!
# The embedding program

What a configuration takes from the program that it is part of: the environment, functions and
modifiers. Functions give values and know how often they were called before; what a modifier does to
the tree is one of a few edits.
-/
namespace ConfTree

/-- What a modifier of the embedding program does to the node that it is applied to. -/
inductive HostEdit where
  | nothing
  /-- lets the value pass through a transform -/
  | transform (name : Text)
  /-- gives back something that is no node -/
  | answer (v : Value)
  /-- puts a tree built from a raw value in the node's place and gives it back -/
  | replace (raw : Value)
  /-- puts a tree built from a raw value in the place of the node's container -/
  | replaceContainer (raw : Value)
  /-- fails with an error of its own -/
  | fail (message : Text)

/-- The embedding program. -/
structure Host where
  /-- the variables of the environment -/
  environment : List (Text × Text)
  /-- the working directory -/
  directory : Text
  /-- what a function gives for arguments, by its name and the number of earlier calls -/
  function : Text → Nat → List Value → Pairs → Compute Value
  /-- the part of an object under an index -/
  subscript : Foreign → Value → Compute Value
  modifier : Text → HostEdit
  transform : Text → Value → Compute Value

namespace Host

/-- A program that offers no functions and modifiers. -/
def bare (environment : List (Text × Text)) (directory : Text) : Host where
  environment := environment
  directory := directory
  function name _ _ _ := throw (.foreign name)
  subscript _ _ := return .undefined
  modifier _ := .nothing
  transform _ v := return v

/-- The functions that an environment has besides its variables. -/
def methods : List Text :=
  ["toString","toLocaleString","valueOf","hasOwnProperty","isPrototypeOf","propertyIsEnumerable",
    "__defineGetter__","__defineSetter__","__lookupGetter__","__lookupSetter__"]

/-- The display of what an environment has under a name besides its variables. -/
def inherited? (name : Text) : Option Text :=
  let display (name : Text) : Text := .concat ["function ",name,"() \x7b [native code] \x7d"]
  if name = "constructor" then some (display "Object")
  else if methods.contains name then some (display name)
  else none

/-- The value of an environment variable, undefined if it is not set. -/
def valueOf (host : Host) (name : Text) : Compute Value :=
  match host.environment.lookup name, inherited? name with
  | some text, _ => return .text text
  | none, some display => return .object (.foreign 0 ⟨"function",display,false,false⟩)
  | none, none => if name = "__proto__" then Compute.mapping [] else return .undefined

end Host
end ConfTree
