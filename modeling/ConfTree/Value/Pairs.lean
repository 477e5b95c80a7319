import ConfTree.Value.Basic

/-!
# The content of mappings

Pairs of a key and a value, one pair a key. Keys that are array indices come first, in ascending
order; the others follow in the order of their first insertion. Writing a key again keeps its place.
-/
namespace ConfTree

namespace Text

/-- The array index that a text writes: decimal digits without leading zeros, below 2 ^ 32 - 1. -/
def arrayIndex? (t : Text) : Option Nat :=
  let n := Number.valueOfDigits 10 t.units
  if t.isEmpty || !t.units.all CodeUnit.isDigit || t.length > 10 || ofNat n != t || n ≥ 0xFFFFFFFF then none
  else some n

end Text

namespace Pairs

variable {α : Type}

/-- The value under a key. -/
def get? (pairs : List (Text × α)) (key : Text) : Option α := pairs.lookup key

def contains (pairs : List (Text × α)) (key : Text) : Bool := (get? pairs key).isSome

def keys (pairs : List (Text × α)) : List Text := pairs.map Prod.fst

/-- Overwrites the value under a key that is present. -/
def replace (key : Text) (value : α) : List (Text × α) → List (Text × α)
  | [] => []
  | (k,v) :: rest => if k = key then (k,value) :: rest else (k,v) :: replace key value rest

/-- Whether a new key of index `index` stands before a key. -/
def standsBefore (index : Nat) (key : Text) : Bool :=
  match key.arrayIndex? with
  | some other => index < other
  | none => true

/-- Adds a key that is absent, at its place. -/
def add (key : Text) (value : α) (pairs : List (Text × α)) : List (Text × α) :=
  match key.arrayIndex? with
  | none => pairs ++ [(key,value)]
  | some index =>
    let (before,after) := pairs.span fun p => !standsBefore index p.1
    before ++ (key,value) :: after

/-- Writes a value under a key. -/
def insert (pairs : List (Text × α)) (key : Text) (value : α) : List (Text × α) :=
  if contains pairs key then replace key value pairs else add key value pairs

/-- Writes all pairs of the second list over the first. -/
def insertAll (pairs more : List (Text × α)) : List (Text × α) :=
  more.foldl (fun acc p => insert acc p.1 p.2) pairs

/-- The pairs written one after another. -/
def ofList (written : List (Text × α)) : List (Text × α) := insertAll [] written

end Pairs
end ConfTree
