import Mathlib.Data.List.TakeDrop
import ConfTree.Value.Pairs

/-!
# Pairs written one by one

Where a pair comes to stand depends on the keys alone: other values under the same keys, written in the same order, stand at
the same places (`ofList_mapValues`).
-/
namespace ConfTree.Pairs

variable {α β : Type} {f : α → β} {pairs more : List (Text × α)} {key : Text} {v : α}

/-- The same keys, with what a function makes of their values. -/
def mapValues (f : α → β) (pairs : List (Text × α)) : List (Text × β) := pairs.map fun p => (p.1,f p.2)

@[simp] theorem mapValues_nil : mapValues f [] = [] := rfl

@[simp] theorem mapValues_cons {p : Text × α} : mapValues f (p :: pairs) = (p.1,f p.2) :: mapValues f pairs := rfl

@[simp] theorem length_mapValues : (mapValues f pairs).length = pairs.length := List.length_map _

@[simp] theorem isEmpty_mapValues : (mapValues f pairs).isEmpty = pairs.isEmpty := List.isEmpty_map

@[simp] theorem keys_mapValues : keys (mapValues f pairs) = keys pairs := by
  simp [keys,mapValues]

theorem lookup_mapValues : (mapValues f pairs).lookup key = (pairs.lookup key).map f := by
  induction pairs with
  | nil => rfl
  | cons p rest ih =>
    obtain ⟨k,w⟩ := p
    rw [mapValues,List.map_cons,List.lookup_cons,List.lookup_cons]
    cases key == k with
    | true => rfl
    | false => exact ih

theorem contains_mapValues : contains (mapValues f pairs) key = contains pairs key := by
  rw [contains,get?,lookup_mapValues,Option.isSome_map]
  rfl

theorem replace_mapValues : replace key (f v) (mapValues f pairs) = mapValues f (replace key v pairs) := by
  induction pairs with
  | nil => rfl
  | cons p rest ih =>
    obtain ⟨k,w⟩ := p
    rw [mapValues,List.map_cons,replace,replace]
    by_cases same : k = key
    · rw [if_pos same,if_pos same]
      rfl
    · rw [if_neg same,if_neg same]
      exact congrArg ((k,f w) :: ·) ih

theorem add_mapValues : add key (f v) (mapValues f pairs) = mapValues f (add key v pairs) := by
  unfold add
  cases key.arrayIndex? with
  | none => simp [mapValues]
  | some i => simp [mapValues,List.span_eq_takeWhile_dropWhile,List.takeWhile_map,List.dropWhile_map,Function.comp_def]

theorem insert_mapValues : insert (mapValues f pairs) key (f v) = mapValues f (insert pairs key v) := by
  rw [insert,insert,contains_mapValues]
  split
  · exact replace_mapValues
  · exact add_mapValues

theorem insertAll_mapValues : insertAll (mapValues f pairs) (mapValues f more) = mapValues f (insertAll pairs more) := by
  induction more generalizing pairs with
  | nil => rfl
  | cons p rest ih =>
    show insertAll (insert (mapValues f pairs) p.1 (f p.2)) (mapValues f rest) = _
    rw [insert_mapValues]
    exact ih

theorem ofList_mapValues (written : List (Text × α)) : ofList (mapValues f written) = mapValues f (ofList written) := by
  rw [ofList,ofList,← insertAll_mapValues,mapValues_nil]

end ConfTree.Pairs
