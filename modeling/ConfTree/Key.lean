import ConfTree.Expr.Grammar
import ConfTree.Fault.Basic

/-!
# Keys

A raw key is `name`, `name:types` or `name:types:modifiers`. The declarations are lists of
expressions; here they are only split off and checked for form, and they are evaluated later.
-/
namespace ConfTree

/-- The declarations of a key, not yet evaluated. -/
structure DeclarationSource where
  types : Option Text
  modifiers : Option Text
deriving DecidableEq

namespace DeclarationSource

def none : DeclarationSource := ⟨.none,.none⟩

end DeclarationSource

/-- A key split into its name and its declarations. -/
structure Key where
  name : Text
  source : DeclarationSource

namespace Key

/-- The parts of a raw key, empty ones included. -/
structure Parts where
  name : Text
  types : Text
  modifiers : Text

/-- Any unit but a colon. -/
def isNoColon (u : CodeUnit) : Bool := u != ':'

/-- Splits a raw key at its first two colons, blanks around the parts dropped. The name is an
identifier, and the modifiers stand on one line. -/
def split? (raw : Text) : Option Parts :=
  let us := Text.skipBlanks raw.units
  let name : Text := ⟨us.takeWhile CodeUnit.inName⟩
  if !(us.head?.any CodeUnit.startsName) then none
  else match Text.skipBlanks (us.dropWhile CodeUnit.inName) with
    | [] => some ⟨name,.empty,.empty⟩
    | u :: declared =>
      if isNoColon u then none
      else
        let types := Text.trim ⟨declared.takeWhile isNoColon⟩
        let modifiers := Text.trim ⟨(declared.dropWhile isNoColon).drop 1⟩
        if modifiers.units.any CodeUnit.endsLine then none else some ⟨name,types,modifiers⟩

/-- A declaration part that is a list of expressions; an empty part counts as absent. -/
def checkPart (raw part : Text) : Except ConstructionIssue (Option Text) :=
  if part.isEmpty then .ok none
  else match Grammar.parseList part with
    | .ok _ => .ok (some part)
    | .error position => .error (.invalidDeclaration raw (.malformed part (position + 1)))

/-- The name that no key can have. -/
def reserved : Text := "__proto__"

/-- Reads a raw key. -/
def parse (raw : Text) : Except ConstructionIssue Key :=
  match split? raw with
  | none => .error (.invalidKey raw)
  | some parts => do
    if parts.name = reserved then throw (.reservedKey reserved)
    let types ← checkPart raw parts.types
    let modifiers ← checkPart raw parts.modifiers
    return ⟨parts.name,types,modifiers⟩

end Key
end ConfTree
