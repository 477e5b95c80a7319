import ConfTree.Value.Pairs

/-!
# Declarations

The types and modifiers that a key declares for its value, and how the declaration of a mapping
that extends another combines with that of its base: own types win, and an own modifier takes the
place of the base's modifier of its kind.
-/
namespace ConfTree

/-- A type that a resolved value is checked against. -/
inductive TypeConstraint where
  | null
  | named (type : TypeName)
deriving DecidableEq

namespace TypeConstraint

def name : TypeConstraint → Text
  | null => "null"
  | named type => type.name

/-- Whether a value is of the type. -/
def accepts : TypeConstraint → Value → Bool
  | null, .null => true
  | named .int, .number n => n.isInteger
  | named .float, .number n => n.isFinite
  | named .number, .number _ => true
  | named .str, .text _ => true
  | named .bool, .bool _ => true
  | named .list, .list .. => true
  | named .set, .set .. => true
  | named .dict, .mapping .. => true
  | _, _ => false

end TypeConstraint

/-- The evaluated declaration of a key; no types is other than an empty list of them. -/
structure Declaration where
  types : Option (List TypeConstraint)
  modifiers : List ModifierObject

namespace ModifierObject

/-- What becomes of an own modifier in the place of the base's modifier of its kind: named options
are merged into a new modifier, a bare `load` gives way, and any other stands. -/
def inherit (fresh : Identity) (own base : ModifierObject) : ModifierObject :=
  match own.modifier, base.modifier with
  | .options options fallback, .options baseOptions baseFallback =>
    ⟨fresh,.options (Pairs.insertAll baseOptions options) (fallback <|> baseFallback)⟩
  | .load none none, .load .. => base
  | _, _ => own

end ModifierObject

namespace Declaration

/-- The first own modifier of a kind that was not used yet. -/
def match? (own : List ModifierObject) (used : List Identity) (base : ModifierObject) :
    Option ModifierObject :=
  own.find? fun m => m.modifier.kind == base.modifier.kind && !used.contains m.id

/-- The base's modifiers in place, each giving way to the own one of its kind; with them, the own
ones that were used. New modifiers take the identities from `fresh` on, one for each place. -/
def inheritAll (own : List ModifierObject) :
    Identity → List Identity → List ModifierObject → List ModifierObject × List Identity
  | _, used, [] => ([],used)
  | fresh, used, base :: rest =>
    match match? own used base with
    | none =>
      let (tail,used) := inheritAll own (fresh + 1) used rest
      (base :: tail,used)
    | some m =>
      let (tail,used) := inheritAll own (fresh + 1) (m.id :: used) rest
      (m.inherit fresh base :: tail,used)

/-- An own declaration over a base's: own types win when present, the base's modifiers keep their
places, and the own modifiers that took none follow. -/
def merge (fresh : Identity) (own base : Declaration) : Declaration :=
  let (inherited,used) := inheritAll own.modifiers fresh [] base.modifiers
  ⟨own.types <|> base.types,inherited ++ own.modifiers.filter fun m => !used.contains m.id⟩

end Declaration
end ConfTree
