/-!
# Text

A text is a sequence of UTF-16 code units. Length, indexing and order count units; a surrogate
that stands alone is a unit like any other, so every sequence is a text.
-/
namespace ConfTree

/-- A UTF-16 code unit. -/
abbrev CodeUnit := UInt16

namespace CodeUnit

/-- The unit that stands for a character of the basic plane. -/
def ofChar (c : Char) : CodeUnit := c.val.toUInt16

instance : Coe Char CodeUnit := ⟨ofChar⟩

/-- First half of a pair of units. -/
def isHigh (u : CodeUnit) : Bool := 0xD800 ≤ u && u < 0xDC00

/-- Second half of a pair of units. -/
def isLow (u : CodeUnit) : Bool := 0xDC00 ≤ u && u < 0xE000

/-- An ASCII digit. -/
def isDigit (u : CodeUnit) : Bool := 0x30 ≤ u && u ≤ 0x39

/-- An ASCII letter. -/
def isLetter (u : CodeUnit) : Bool := (0x41 ≤ u && u ≤ 0x5A) || (0x61 ≤ u && u ≤ 0x7A)

/-- A unit that can start a name: an ASCII letter or an underscore. -/
def startsName (u : CodeUnit) : Bool := u.isLetter || u == 0x5F

/-- A unit that can continue a name: an ASCII letter, a digit or an underscore. -/
def inName (u : CodeUnit) : Bool := u.startsName || u.isDigit

/-- A unit that ends a line: `\n`, `\r`, the line separator and the paragraph separator. -/
def endsLine (u : CodeUnit) : Bool := u == 0x0A || u == 0x0D || u == 0x2028 || u == 0x2029

/-- The value of a hexadecimal digit. -/
def hexValue? (u : CodeUnit) : Option Nat :=
  if u.isDigit then some (u.toNat - 0x30)
  else if 0x41 ≤ u && u ≤ 0x46 then some (u.toNat - 0x41 + 10)
  else if 0x61 ≤ u && u ≤ 0x66 then some (u.toNat - 0x61 + 10)
  else none

end CodeUnit

/-- The units of a code point: one below 65536, a pair above. -/
def unitsOfCodePoint (n : Nat) : List CodeUnit :=
  if n < 0x10000 then [n.toUInt16]
  else [(0xD800 + (n - 0x10000) / 0x400).toUInt16,(0xDC00 + (n - 0x10000) % 0x400).toUInt16]

/-- A sequence of UTF-16 code units. -/
structure Text where
  units : List CodeUnit
deriving DecidableEq, Inhabited

namespace Text

/-- The units of a string. -/
def ofString (s : String) : Text := ⟨s.toList.flatMap fun c => unitsOfCodePoint c.toNat⟩

instance : Coe String Text := ⟨ofString⟩

def empty : Text := ⟨[]⟩

def isEmpty (t : Text) : Bool := t.units.isEmpty

/-- The number of units. -/
def length (t : Text) : Nat := t.units.length

instance : Append Text := ⟨fun a b => ⟨a.units ++ b.units⟩⟩

instance : LT Text := ⟨fun a b => a.units < b.units⟩

instance (a b : Text) : Decidable (a < b) := inferInstanceAs (Decidable (a.units < b.units))

/-- All parts, one after another. -/
def concat (parts : List Text) : Text := ⟨parts.flatMap Text.units⟩

/-- The parts with a separator between neighbours. -/
def join (separator : Text) (parts : List Text) : Text :=
  ⟨List.intercalate separator.units (parts.map Text.units)⟩

/-- A text between two single quotes. -/
def quoted (t : Text) : Text := concat ["'",t,"'"]

/-- A text a number of times. -/
def replicate (n : Nat) (t : Text) : Text := ⟨(List.replicate n t.units).flatten⟩

def startsWith (t start : Text) : Bool := start.units.isPrefixOf t.units

def take (n : Nat) (t : Text) : Text := ⟨t.units.take n⟩

def drop (n : Nat) (t : Text) : Text := ⟨t.units.drop n⟩

/-- Whether a list occurs in another, all in one piece. -/
def occursIn (part : List CodeUnit) : List CodeUnit → Bool
  | [] => part.isEmpty
  | u :: rest => part.isPrefixOf (u :: rest) || occursIn part rest

/-- Whether `part` occurs in `t`. -/
def contains (t part : Text) : Bool := occursIn part.units t.units

/-- The pieces between the occurrences of a unit. -/
def splitOn (separator : CodeUnit) (t : Text) : List Text := (t.units.splitOn separator).map Text.mk

/-- The decimal digits of a natural number. -/
def ofNat (n : Nat) : Text := ⟨(Nat.toDigits 10 n).map CodeUnit.ofChar⟩

/-- A sign if negative, then the decimal digits. -/
def ofInt (i : Int) : Text := if i < 0 then ("-" : Text) ++ ofNat i.natAbs else ofNat i.natAbs

/-- Pairs of units joined into code points, units that stand alone kept. -/
def codePointsOf : List CodeUnit → List (List CodeUnit)
  | [] => []
  | [u] => [[u]]
  | u :: v :: rest =>
    if u.isHigh && v.isLow then [u,v] :: codePointsOf rest else [u] :: codePointsOf (v :: rest)

/-- The text cut into its code points. -/
def codePoints (t : Text) : List Text := (codePointsOf t.units).map Text.mk

/-- The number of a code point given by its units. -/
def codePointValue : List CodeUnit → Nat
  | [u] => u.toNat
  | [u,v] => 0x10000 + (u.toNat - 0xD800) * 0x400 + (v.toNat - 0xDC00)
  | _ => 0

/-- The characters of the text, the replacement character for a surrogate that stands alone. -/
def toString (t : Text) : String :=
  String.ofList ((codePointsOf t.units).map fun p =>
    let n := codePointValue p
    if n.isValidChar then Char.ofNat n else '\uFFFD')

instance : ToString Text := ⟨toString⟩

end Text

/-! ## Pieces -/

/-- No part of a split list holds what it was split at. -/
theorem not_mem_of_mem_splitOn {α : Type} [BEq α] [LawfulBEq α] {x : α} {xs part : List α} (member : part ∈ xs.splitOn x) : x ∉ part := by
  induction xs generalizing part with
  | nil =>
    obtain rfl : part = [] := by simpa using member
    simp
  | cons y xs ih =>
    rw [List.splitOn_cons_eq_if_modifyHead] at member
    split at member
    · rcases List.mem_cons.mp member with rfl | later
      · simp
      · exact ih later
    · next differs =>
      obtain ⟨first,rest,split⟩ := List.exists_cons_of_ne_nil (List.splitOn_ne_nil x xs)
      rw [split] at member ih
      rcases List.mem_cons.mp member with rfl | later
      · have apart : x ≠ y := by
          rintro rfl
          simp at differs
        simpa [apart] using ih (List.mem_cons_self ..)
      · exact ih (List.mem_cons_of_mem _ later)

/-- What is not the separator is in a part of a split list just if it is in the list. -/
theorem mem_splitOn_iff {α : Type} [BEq α] [LawfulBEq α] {x separator : α} {xs : List α} (apart : x ≠ separator) :
    (∃ part ∈ xs.splitOn separator, x ∈ part) ↔ x ∈ xs := by
  induction xs with
  | nil => simp
  | cons y xs ih =>
    rw [List.splitOn_cons_eq_if_modifyHead]
    split
    · next same =>
      obtain rfl := eq_of_beq same
      simpa [apart] using ih
    · obtain ⟨first,rest,split⟩ := List.exists_cons_of_ne_nil (List.splitOn_ne_nil separator xs)
      rw [split] at ih ⊢
      rw [List.mem_cons,← ih]
      simp [or_assoc]

namespace Text

variable {t piece : Text} {pieces : List Text} {separator : CodeUnit}

theorem splitOn_ne_nil (separator : CodeUnit) (t : Text) : t.splitOn separator ≠ [] := by simp [splitOn]

theorem not_mem_of_mem_splitOn (member : piece ∈ t.splitOn separator) : separator ∉ piece.units := by
  obtain ⟨part,among,rfl⟩ := List.mem_map.mp member
  exact ConfTree.not_mem_of_mem_splitOn among

/-- A unit other than the separator is in a piece just if it is in the text. -/
theorem mem_piece_iff {u : CodeUnit} (apart : u ≠ separator) : (∃ piece ∈ t.splitOn separator, u ∈ piece.units) ↔ u ∈ t.units := by
  rw [← mem_splitOn_iff apart,splitOn]
  constructor
  · rintro ⟨piece,member,inside⟩
    obtain ⟨part,among,rfl⟩ := List.mem_map.mp member
    exact ⟨part,among,inside⟩
  · rintro ⟨part,among,inside⟩
    exact ⟨⟨part⟩,List.mem_map_of_mem among,inside⟩

theorem join_splitOn (separator : CodeUnit) (t : Text) : join ⟨[separator]⟩ (t.splitOn separator) = t := by
  rw [join,splitOn,List.map_map]
  show Text.mk (List.intercalate _ ((List.splitOn _ _).map fun us => us)) = t
  rw [List.map_id',List.intercalate_splitOn]

theorem splitOn_join (apart : ∀ piece ∈ pieces, separator ∉ piece.units) (nonempty : pieces ≠ []) :
    (join ⟨[separator]⟩ pieces).splitOn separator = pieces := by
  rw [splitOn,join,List.splitOn_intercalate _ (by simpa using apart) (by simpa using nonempty),List.map_map]
  exact List.map_id' pieces

/-- What stands on both sides of a separator is split apart. -/
theorem splitOn_append_cons (us vs : List CodeUnit) :
    splitOn separator ⟨us ++ separator :: vs⟩ = splitOn separator ⟨us⟩ ++ splitOn separator ⟨vs⟩ := by
  rw [splitOn,List.splitOn_append_cons_self,List.map_append]
  rfl

theorem splitOn_whole (whole : separator ∉ t.units) : t.splitOn separator = [t] := by
  rw [splitOn,List.splitOn_eq_singleton whole]
  rfl

end Text
end ConfTree
