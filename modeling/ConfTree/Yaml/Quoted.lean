import ConfTree.Yaml.Place

/-!
# Quoted scalars

In single quotes a quote is written twice and nothing else is special. In double quotes a backslash
begins an escape. In both, line ends and the space after them are folded, and a boundary between
documents must not come before the closing quote.
-/
namespace ConfTree.Yaml

open Scan

/-- A unit that may stand in quotes: a tab, or any unit from the space on. -/
def isQuotable (u : CodeUnit) : Bool := u == '\t' || 0x20 ≤ u

/-- A line end in quotes, with the space that follows. -/
def quotedBreak : Scan (List CodeUnit) := folded <$> skip false

/-- A unit in quotes that is nothing special. -/
def quotedUnit (u : CodeUnit) : Scan (List CodeUnit) := do
  if !isQuotable u || (← atBoundary) then failure
  advance 1
  return [u]

/-- The rest of a scalar in single quotes, in so many steps at most. -/
def singleQuoted : Nat → Scan (List CodeUnit)
  | 0 => failure
  | fuel + 1 => do
    match (← get).rest with
    | [] => failure
    | u :: after =>
      if u == '\'' then
        if after.head? == some u then
          advance 2
          return u :: (← singleQuoted fuel)
        else
          advance 1
          return []
      else
        let part ← if isBreak u then quotedBreak else quotedUnit u
        return part ++ (← singleQuoted fuel)

/-! ## Escapes -/

/-- The escapes of one unit. -/
def escapes : List (Char × CodeUnit) :=
  [('0',0x00),('a',0x07),('b',0x08),('t',0x09),('\t',0x09),('n',0x0A),('v',0x0B),('f',0x0C),
    ('r',0x0D),('e',0x1B),(' ',0x20),('"',0x22),('/',0x2F),('\\',0x5C),('N',0x85),('_',0xA0),
    ('L',0x2028),('P',0x2029)]

/-- How many hexadecimal digits follow a letter. -/
def hexLength? (u : CodeUnit) : Option Nat :=
  if u == 'x' then some 2 else if u == 'u' then some 4 else if u == 'U' then some 8 else none

/-- The units of a number of 32 bits: a pair from 2 ^ 16 on, if it is positive as a signed number, and
the lower half otherwise. -/
def unitsOfHex (n : Nat) : List CodeUnit :=
  if n < 0x80000000 then (unitsOfCodePoint n) else [n.toUInt16]

/-- What stands after a backslash. -/
def escape (u : CodeUnit) (after : List CodeUnit) : Scan (List CodeUnit) := do
  if isBreak u then
    discard (skip false)
    return []
  match escapes.find? fun e => CodeUnit.ofChar e.1 == u with
  | some e =>
    advance 1
    return [e.2]
  | none =>
    match hexLength? u with
    | none => failure
    | some n =>
      let digits := after.take n
      if digits.length < n || !digits.all (fun d => d.hexValue?.isSome) then failure
      advance (n + 1)
      return unitsOfHex (digits.foldl (fun acc d => acc * 16 + d.hexValue?.getD 0) 0)

/-- The rest of a scalar in double quotes, in so many steps at most. -/
def doubleQuoted : Nat → Scan (List CodeUnit)
  | 0 => failure
  | fuel + 1 => do
    match (← get).rest with
    | [] => failure
    | u :: after =>
      if u == '"' then
        advance 1
        return []
      else
        let part ←
          if u == '\\' then do
            advance 1
            match after with
            | escaped :: rest => escape escaped rest
            | [] => failure
          else if isBreak u then quotedBreak
          else quotedUnit u
        return part ++ (← doubleQuoted fuel)

/-- A scalar that begins with a quote. -/
def quotedScalar (quote : CodeUnit) : Scan Text := do
  advance 1
  let fuel := (← get).rest.length + 1
  return ⟨← if quote == '"' then doubleQuoted fuel else singleQuoted fuel⟩

end ConfTree.Yaml
