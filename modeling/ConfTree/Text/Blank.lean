import ConfTree.Text.Basic

/-!
# Blank units

The units that count as white space around keys, numbers and overrides: the ASCII blanks, the
space separators of Unicode, the two line separators and the byte order mark.
-/
namespace ConfTree

/-- White space, line ends included. -/
def CodeUnit.isBlank (u : CodeUnit) : Bool :=
  (0x09 ≤ u && u ≤ 0x0D) || u == 0x20 || u == 0xA0 || u == 0x1680 || (0x2000 ≤ u && u ≤ 0x200A) ||
    u == 0x2028 || u == 0x2029 || u == 0x202F || u == 0x205F || u == 0x3000 || u == 0xFEFF

namespace Text

/-- The list without the blanks at its start. -/
def skipBlanks (us : List CodeUnit) : List CodeUnit := us.dropWhile CodeUnit.isBlank

/-- The text without the blanks at both ends. -/
def trim (t : Text) : Text := ⟨(skipBlanks (skipBlanks t.units).reverse).reverse⟩

/-- Whether the text holds nothing but blanks. -/
def isBlank (t : Text) : Bool := t.units.all CodeUnit.isBlank

theorem skipBlanks_eq_nil_iff (us : List CodeUnit) :
    skipBlanks us = [] ↔ us.all CodeUnit.isBlank = true := by
  induction us with
  | nil => simp [skipBlanks]
  | cons u us ih =>
    by_cases h : u.isBlank = true
    · rw [List.all_cons,h,Bool.true_and,← ih,skipBlanks,List.dropWhile_cons_of_pos h]; rfl
    · simp [skipBlanks,h]

/-- Nothing is left of a text exactly when it holds nothing but blanks. -/
theorem trim_isEmpty (t : Text) : t.trim.isEmpty = t.isBlank := by
  rw [Bool.eq_iff_iff]
  simp only [isEmpty,trim,isBlank,List.isEmpty_iff,List.reverse_eq_nil_iff,
    skipBlanks_eq_nil_iff,List.all_reverse]
  rw [← skipBlanks_eq_nil_iff,← skipBlanks_eq_nil_iff t.units]
  constructor
  · intro h
    by_cases hn : skipBlanks t.units = []
    · exact hn
    · obtain ⟨u,rest,hu⟩ := List.exists_cons_of_ne_nil hn
      have h1 := List.head_dropWhile_not CodeUnit.isBlank (l := t.units) (by simpa [skipBlanks] using hn)
      have h2 := (skipBlanks_eq_nil_iff _).1 h
      rw [List.all_eq_true] at h2
      have h3 := h2 _ (List.head_mem (by simpa [skipBlanks] using hn))
      simp_all [skipBlanks]
  · intro h
    rw [h]
    rfl

end Text
end ConfTree
