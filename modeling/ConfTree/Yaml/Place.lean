import ConfTree.Text.Basic

/-!
# Places in a document

Reading a document means to know where in its lines it stands: the column, how far the line is
indented, and whether a tab came in the space passed. Only spaces indent; a tab in front of a block
is refused later.
-/
namespace ConfTree.Yaml

/-- A space or a tab. -/
def isSpace (u : CodeUnit) : Bool := u == ' ' || u == '\t'

/-- The end of a line. -/
def isBreak (u : CodeUnit) : Bool := u == '\n'

/-- A unit that separates tokens. -/
def isGap (u : CodeUnit) : Bool := isSpace u || isBreak u

/-- The marks of collections in brackets. -/
def isBracketMark (u : CodeUnit) : Bool := u == ',' || u == '[' || u == ']' || u == '\x7b' || u == '\x7d'

/-- A position in the lines of a document. -/
structure Spot where
  line : Nat
  column : Nat
  /-- spaces at the start of the line -/
  indent : Nat
  /-- whether a tab was passed in the space of the line -/
  tabbed : Bool

/-- A position and what stands from there on. -/
structure Place where
  spot : Spot
  rest : List CodeUnit

namespace Spot

def start : Spot := ⟨0,0,0,false⟩

/-- The start of the next line. -/
def nextLine (s : Spot) : Spot := ⟨s.line + 1,0,0,false⟩

/-- The position a number of units on in the line. -/
def right (s : Spot) (n : Nat) : Spot := { s with column := s.column + n }

end Spot

namespace Place

/-- What space is passed through. -/
inductive Passing where
  /-- the indentation of a line -/
  | indentation
  /-- space between tokens -/
  | space
  /-- a comment, up to the end of its line -/
  | comment
deriving DecidableEq

/-- Passes space and line ends, and comments if they are allowed, up to the next token. Gives the
number of lines ended on the way. -/
def skipFrom (comments : Bool) (passing : Passing) (breaks : Nat) (s : Spot) : List CodeUnit → Nat × Place
  | [] => (breaks,⟨s,[]⟩)
  | u :: rest =>
    if isBreak u then skipFrom comments .indentation (breaks + 1) s.nextLine rest
    else if passing = .comment then skipFrom comments .comment breaks (s.right 1) rest
    else if u == ' ' && passing = .indentation then
      skipFrom comments .indentation breaks { s.right 1 with indent := s.indent + 1 } rest
    else if u == ' ' then skipFrom comments .space breaks (s.right 1) rest
    else if u == '\t' then skipFrom comments .space breaks { s.right 1 with tabbed := true } rest
    else if comments && u == '#' then skipFrom comments .comment breaks (s.right 1) rest
    else (breaks,⟨s,u :: rest⟩)

/-- Whether three equal marks stand alone at the start of a line: `---` or `...`. -/
def isBoundary (p : Place) : Bool :=
  p.spot.column = 0 && match p.rest with
    | a :: b :: c :: after => (a == '-' || a == '.') && a == b && b == c && after.head?.all isGap
    | _ => false

end Place

/-- A reader that fails on what is malformed. -/
abbrev Scan := StateT Place Option

namespace Scan

/-- The unit that comes next. -/
def next? : Scan (Option CodeUnit) := return (← get).rest.head?

def spot : Scan Spot := return (← get).spot

/-- Goes a number of units on in the line. -/
def advance (n : Nat) : Scan Unit := modify fun p => ⟨p.spot.right n,p.rest.drop n⟩

/-- Passes space and line ends, and comments if they are allowed; the number of lines ended. -/
def skip (comments : Bool) : Scan Nat := modifyGet fun p => Place.skipFrom comments .space 0 p.spot p.rest

/-- Whether a boundary between documents comes next. -/
def atBoundary : Scan Bool := return (← get).isBoundary

/-- Whether a given unit comes next, before a gap. -/
def atMark (mark : CodeUnit) : Scan Bool := do
  match (← get).rest with
  | u :: after => return u == mark && after.head?.all isGap
  | [] => return false

end Scan

/-- What so many line ends inside a scalar stand for: one for a space, more for one less. -/
def folded (breaks : Nat) : List CodeUnit :=
  if breaks = 1 then [0x20] else List.replicate (breaks - 1) 0x0A

end ConfTree.Yaml
