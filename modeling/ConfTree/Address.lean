import ConfTree.Fault.Address

/-!
# Addresses

An address leads from one node to another: names and indices separated by points, a run of `n + 1`
points going up `n` levels. An address is well formed when every piece between points is empty or a
component.
-/
namespace ConfTree

/-- One step of an address. -/
inductive Step where
  | ascend (levels : Nat)
  | select (selector : Selector)
deriving DecidableEq

namespace Address

/-- An index without leading zeros. -/
def isIndex (us : List CodeUnit) : Bool :=
  match us with
  | [] => false
  | [u] => u.isDigit
  | u :: rest => u.isDigit && u != '0' && rest.all CodeUnit.isDigit

/-- A name in ASCII. -/
def isName : List CodeUnit → Bool
  | [] => false
  | u :: rest => u.startsName && rest.all CodeUnit.inName

/-- A name, an entry's name behind an asterisk, or an index. -/
def isComponent (us : List CodeUnit) : Bool :=
  isIndex us || isName us ||
    match us with
    | u :: rest => u == '*' && isName rest
    | [] => false

/-- The pieces between points. -/
def pieces (address : Text) : List Text := address.splitOn '.'

/-- Whether the text is an address. -/
def isWellFormed (address : Text) : Bool :=
  (pieces address).all fun piece => piece.isEmpty || isComponent piece.units

/-- What a component selects. -/
def selector (piece : Text) : Selector :=
  if isIndex piece.units then .index (.ofNat (Number.valueOfDigits 10 piece.units)) else .key piece

/-- The step for a run of points. -/
def ascent (points : Nat) : List Step := if points > 1 then [.ascend (points - 1)] else []

/-- The steps for pieces, `points` points standing before the first of them. -/
def stepsFrom (points : Nat) : List Text → List Step
  | [] => ascent (points - 1)
  | piece :: rest =>
    if piece.isEmpty then stepsFrom (points + 1) rest
    else ascent points ++ .select (selector piece) :: stepsFrom 1 rest

/-- The steps of an address. -/
def parse (address : Text) : Except AddressIssue (List Step) :=
  if isWellFormed address then .ok (stepsFrom 0 (pieces address)) else .error (.invalid address)

/-- The parts with points between them. -/
def compose (parts : List Selector) : Text := .join "." (parts.map Selector.text)

end Address
end ConfTree
