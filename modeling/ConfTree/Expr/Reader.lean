import ConfTree.Text.Basic

/-!
# Reading with ordered choice

A reader takes a text from a position and either gives a result and the rest, or fails and takes
nothing. Beside that it keeps the farthest position at which something was expected in vain, also
on ways that were given up; a refusal is reported there. What a lookahead (`ahead`) tries does not
count.
-/
namespace ConfTree

/-- The rest of a text, and how many units stand before it. -/
structure Cursor where
  position : Nat
  rest : List CodeUnit

/-- A reader of `α`; the state that survives failure is the farthest vain expectation. -/
abbrev Reader (α : Type) := StateT Cursor (OptionT (StateM Nat)) α

namespace Reader

variable {α β : Type}

/-- Notes that something was expected in vain where the cursor stands. -/
def note : Reader Unit := fun c => OptionT.lift do
  modify (max c.position)
  return ((),c)

/-- Fails without a note. -/
def giveUp : Reader α := fun _ => OptionT.fail

/-- Notes the position and fails. -/
def refuse : Reader α := do note; giveUp

/-- The first reader, or if it fails the second from the same position. -/
def orElse (first second : Reader α) : Reader α := fun c => OptionT.mk do
  match ← (first c).run with
  | some r => return some r
  | none => (second c).run

/-- The result of a reader, or nothing and no progress if it fails. -/
def maybe (r : Reader α) : Reader (Option α) := orElse (some <$> r) (pure none)

/-- One unit of a class. -/
def unitOf (among : CodeUnit → Bool) : Reader CodeUnit := fun c =>
  match c.rest with
  | u :: rest => if among u then pure (u,⟨c.position + 1,rest⟩) else refuse c
  | [] => refuse c

/-- One given unit. -/
def unit (expected : CodeUnit) : Reader Unit := discard (unitOf (· == expected))

/-- A given run of units; in vain, it counts at its start. -/
def literal (expected : Text) : Reader Unit := fun c =>
  if expected.units.isPrefixOf c.rest then
    pure ((),⟨c.position + expected.length,c.rest.drop expected.length⟩)
  else refuse c

/-- The longest run of units of a class. -/
def unitsOf (among : CodeUnit → Bool) : Reader (List CodeUnit) := do
  let taken ← fun c =>
    let (run,rest) := c.rest.span among
    pure (run,⟨c.position + run.length,rest⟩)
  note
  return taken

/-- The longest run of units of a class, at least one. -/
def units1Of (among : CodeUnit → Bool) : Reader (List CodeUnit) := do
  let first ← unitOf among
  return first :: (← unitsOf among)

/-- Whether a unit of a class comes next. -/
def ahead (among : CodeUnit → Bool) : Reader Bool := fun c =>
  pure (match c.rest with
    | u :: _ => among u
    | [] => false,c)

/-- Fails, without a note, if a unit of a class comes next. -/
def notAhead (among : CodeUnit → Bool) : Reader Unit := do
  if ← ahead among then giveUp

/-- As many results as the reader gives one after another, at most `fuel`. -/
def manyUpTo (r : Reader α) : Nat → Reader (List α)
  | 0 => pure []
  | fuel + 1 => do
    match ← maybe r with
    | none => return []
    | some a => return a :: (← manyUpTo r fuel)

/-- As many results as the reader gives one after another. A result takes a unit at least, so that
the length of the rest bounds their number. -/
def many (r : Reader α) : Reader (List α) := fun c => manyUpTo r c.rest.length c

/-- The result of a reader together with the text it took. -/
def withSource (r : Reader α) : Reader (α × Text) := do
  let start ← get
  let a ← r
  let stop ← get
  return (a,⟨start.rest.take (stop.position - start.position)⟩)

/-- The result of a reader that takes the whole text, or the farthest position where it failed. -/
def runAll (r : Reader α) (t : Text) : Except Nat α :=
  let (result,farthest) := (r ⟨0,t.units⟩).run 0
  match result with
  | some (a,c) => if c.rest.isEmpty then .ok a else .error (max farthest c.position)
  | none => .error farthest

end Reader
end ConfTree
