import ConfTree.CommandLine.Run

/-!
# Given surroundings

The surroundings of a run can be given as a JSON object: the working directory under `directory`, the
variables of the environment under `environment`, and the texts of all files by their paths under
`files`. What is left out is empty, and the working directory then is the root.
-/
namespace ConfTree.CommandLine

/-- The text under a name. -/
def textUnder? (pairs : Pairs) (name : Text) : Option Text :=
  match Pairs.get? pairs name with
  | some (.text t) => some t
  | _ => none

/-- The pairs of names and texts under a name. -/
def textsUnder (pairs : Pairs) (name : Text) : List (Text × Text) :=
  match Pairs.get? pairs name with
  | some (.mapping _ texts) => texts.filterMap fun p => (textUnder? texts p.1).map fun t => (p.1,t)
  | _ => []

/-- The surroundings that a JSON object gives. -/
def Surroundings.ofPairs (pairs : Pairs) : Surroundings :=
  let directory := (textUnder? pairs "directory").getD "/"
  let environment := textsUnder pairs "environment"
  let working := Path.root.resolve directory
  let files := Snapshot.ofList working (textsUnder pairs "files")
  let home := (Pairs.get? environment "HOME").getD "/"
  ⟨Host.bare environment directory,files,⟨environment,working,home,directory,files⟩,false⟩

/-- The surroundings that a text gives; a text that writes no object gives empty ones. -/
def Surroundings.ofText (t : Text) : Surroundings :=
  match Json.read? t with
  | some (.mapping _ pairs) => .ofPairs pairs
  | _ => .ofPairs []

end ConfTree.CommandLine
