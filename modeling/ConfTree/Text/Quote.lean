import ConfTree.Text.Basic

/-!
# Quoted text

A text between double quotes, with escapes for quotes, backslashes, control units and surrogates
that stand alone.
-/
namespace ConfTree.Text

namespace Quote

def hexDigit (n : Nat) : CodeUnit := (if n < 10 then 0x30 + n else 0x57 + n).toUInt16

/-- The escape that writes a unit by its four hexadecimal digits. -/
def hexEscape (u : CodeUnit) : List CodeUnit :=
  let n := u.toNat
  [0x5C,0x75,hexDigit (n / 0x1000 % 16),hexDigit (n / 0x100 % 16),hexDigit (n / 16 % 16),hexDigit (n % 16)]

/-- The form of a unit that is no part of a pair. -/
def escapeUnit (u : CodeUnit) : List CodeUnit :=
  if u == '"' then ofString "\\\"" |>.units
  else if u == '\\' then ofString "\\\\" |>.units
  else if u == 0x08 then ofString "\\b" |>.units
  else if u == 0x0C then ofString "\\f" |>.units
  else if u == '\n' then ofString "\\n" |>.units
  else if u == '\r' then ofString "\\r" |>.units
  else if u == '\t' then ofString "\\t" |>.units
  else if u < 0x20 || u.isHigh || u.isLow then hexEscape u
  else [u]

/-- The form of a code point: a pair stands for itself. -/
def escapePoint : List CodeUnit → List CodeUnit
  | [u] => escapeUnit u
  | pair => pair

end Quote

/-- The text between double quotes, escaped where needed. -/
def escaped (t : Text) : Text :=
  ⟨(0x22 : CodeUnit) :: ((codePointsOf t.units).flatMap Quote.escapePoint ++ [0x22])⟩

end ConfTree.Text
