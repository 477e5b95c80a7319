import ConfTree.Proofs.Slices

/-!
# Units and code points

A text is measured and indexed by units, and sliced and iterated by code points. The two ways agree on texts in which no
two units make one code point (`Text.Unpaired`), and on no other text are there as many code points as units.
-/
namespace ConfTree

namespace Text

/-- No first half of a pair stands right before a second half. -/
def Unpaired (t : Text) : Prop := t.units.IsChain fun u v => (u.isHigh && v.isLow) = false

theorem flatten_codePointsOf (us : List CodeUnit) : (codePointsOf us).flatten = us := by
  fun_induction codePointsOf us <;> simp_all

/-- The code points make up the text. -/
theorem concat_codePoints (t : Text) : concat t.codePoints = t := by
  simp [concat,codePoints,List.flatMap_map,flatten_codePointsOf]

theorem length_codePointsOf_le (us : List CodeUnit) : (codePointsOf us).length ≤ us.length := by
  fun_induction codePointsOf us with
  | case1 => simp
  | case2 u => simp
  | case3 u v rest pair ih => simp; omega
  | case4 u v rest apart ih => simpa using ih

theorem length_codePointsOf_eq_iff (us : List CodeUnit) :
    (codePointsOf us).length = us.length ↔ us.IsChain fun u v => (u.isHigh && v.isLow) = false := by
  fun_induction codePointsOf us with
  | case1 => simp
  | case2 u => simp
  | case3 u v rest pair ih =>
    have fewer := length_codePointsOf_le rest
    rw [List.isChain_cons_cons]
    simp [pair]
    omega
  | case4 u v rest apart ih =>
    have single : (u.isHigh && v.isLow) = false := Bool.eq_false_iff.mpr apart
    rw [List.isChain_cons_cons,← ih]
    simp [single]

theorem codePointsOf_unpaired {us : List CodeUnit} (unpaired : us.IsChain fun u v => (u.isHigh && v.isLow) = false) :
    codePointsOf us = us.map fun u => [u] := by
  fun_induction codePointsOf us with
  | case1 => rfl
  | case2 u => rfl
  | case3 u v rest pair ih =>
    have differ := (List.isChain_cons_cons.mp unpaired).1
    rw [pair] at differ
    cases differ
  | case4 u v rest apart ih => simpa using ih (List.isChain_cons_cons.mp unpaired).2

theorem codePoints_unpaired {t : Text} (unpaired : t.Unpaired) : t.codePoints = t.units.map fun u => ⟨[u]⟩ := by
  rw [codePoints,codePointsOf_unpaired unpaired,List.map_map]
  rfl

end Text

namespace Sequence

/-! ## Parts of a text -/

/-- A slice from a place to the next one is what stands there. -/
theorem selection_single {α : Type} (items : List α) {i : Nat} (inside : i < items.length) :
    selection items (some i) (some (i + 1)) 1 = [items[i]] := by
  have first : firstPlace items.length 1 (some i) = i := by
    simp [firstPlace,drawn,clamp]; omega
  have last : lastPlace items.length 1 (some (i + 1)) = i + 1 := by
    simp [lastPlace,drawn,clamp]; omega
  have walk : places (i + 1) 1 i = [(i : Int)] := by
    rw [places,if_pos (by simp [toGo]),places,if_neg (by simp [toGo])]
  rw [← map_itemAt_places items items[i] (by decide),first,last,walk,List.map_singleton,itemAt_eq inside]

/-- A slice of a text selects among its code points. -/
theorem slice_text (t : Text) {start stop step : Value} {first last stride : Option Int} (starts : IsBound start first)
    (stops : IsBound stop last) (steps : IsBound step stride) (moves : stride.getD 1 ≠ 0) :
    slice (.text t) start stop step = pure (.text (.concat (selection t.codePoints first last (stride.getD 1)))) := by
  simp only [slice,sliceItems_ok t.codePoints .empty starts stops steps moves]
  rfl

theorem position_ok {n : Number} {i length : Nat} (whole : n.int? = some (i : Int)) (inside : i < length) :
    position (.number n) length = .ok i := by
  have low : ¬ (i : Int) < 0 := by omega
  simp [position,whole,low,inside]

theorem index?_text (t : Text) {n : Number} {i : Nat} (whole : n.int? = some (i : Int)) (inside : i < t.units.length) :
    index? (.text t) (.number n) = some (.ok (.text ⟨[t.units[i]]⟩)) := by
  have found : position (.number n) t.length = .ok i := position_ok whole inside
  simp [index?,found,Text.take,Text.drop,List.take_one,List.head?_drop,inside]

/-- Iteration gives as many parts as a text is long if no two units make one code point, and otherwise fewer. -/
theorem iterate_text (t : Text) : ∃ parts, iterate (.text t) = .ok parts ∧ parts.length ≤ t.length ∧
    (parts.length = t.length ↔ t.Unpaired) := by
  refine ⟨_,rfl,?_⟩
  rw [List.length_map,Text.codePoints,List.length_map]
  exact ⟨Text.length_codePointsOf_le t.units,Text.length_codePointsOf_eq_iff t.units⟩

example : (⟨[0xD83D,0xDE00]⟩ : Text).length = 2 ∧ (⟨[0xD83D,0xDE00]⟩ : Text).codePoints = [⟨[0xD83D,0xDE00]⟩] := by decide

/-- In a text without pairs, an index, a slice of one and iteration give the same part at each place. -/
theorem parts_agree {t : Text} (unpaired : t.Unpaired) {n m : Number} {i : Nat} (here : n.int? = some (i : Int))
    (next : m.int? = some (i + 1 : Int)) (inside : i < t.length) :
    ∃ part : Text, index? (.text t) (.number n) = some (.ok (.text part)) ∧
      slice (.text t) (.number n) (.number m) .undefined = pure (.text part) ∧
      ∃ parts, iterate (.text t) = .ok parts ∧ parts.length = t.length ∧ parts[i]? = some (.text part) := by
  have single := Text.codePoints_unpaired unpaired
  have inside' : i < t.units.length := inside
  refine ⟨⟨[t.units[i]]⟩,index?_text t here inside',?_,_,rfl,?_,?_⟩
  · rw [slice_text t (.integer here) (.integer next) (.absent rfl) (by decide),single]
    have chosen := selection_single (t.units.map fun u => Text.mk [u]) (i := i) (by simpa using inside')
    simp only [Option.getD_none,chosen,List.getElem_map]
    rfl
  · simp [single,Text.length]
  · simp [single,inside']

end Sequence
end ConfTree
