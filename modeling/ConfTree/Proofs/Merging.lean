import Mathlib.Data.List.Nodup
import ConfTree.Declaration

/-!
Declarations merged. A modifier of an own list takes the place of the modifier of the base that has its kind and its
rank among those of that kind; the others follow (`Declaration.merge_positional`), so that each kind is as frequent as
in the longer of the two lists (`Declaration.merge_count`). For this the own modifiers have to be distinct: one that is
listed twice, as a modifier without arguments can be, counts as used as soon as it was used once.
-/
namespace ConfTree

/-- The modifiers of a kind, in order. -/
def ofKind (kind : Text) (ms : List ModifierObject) : List ModifierObject := ms.filter fun m => m.modifier.kind == kind

variable {kind : Text} {m b : ModifierObject} {ms ns own base earlier : List ModifierObject} {used : List Identity} {fresh : Identity}

theorem ofKind_append : ofKind kind (ms ++ ns) = ofKind kind ms ++ ofKind kind ns := List.filter_append _ _

theorem mem_ofKind : m ∈ ofKind kind ms ↔ m ∈ ms ∧ m.modifier.kind = kind := by simp [ofKind]

theorem ofKind_same : ofKind m.modifier.kind [m] = [m] := by simp [ofKind]

theorem ofKind_other (other : m.modifier.kind ≠ kind) : ofKind kind [m] = [] := by simp [ofKind,other]

/-- What stands in the place of a base's modifier is of its kind. -/
theorem ModifierObject.kind_inherit (same : m.modifier.kind = b.modifier.kind) : (m.inherit fresh b).modifier.kind = b.modifier.kind := by
  unfold inherit
  split <;> simp_all [Modifier.kind]

namespace Declaration

/-- What stands in the place of a base's modifier, those before it being given: what it gives way to is the own modifier of
its kind and rank. -/
def standing (own earlier : List ModifierObject) (fresh : Identity) (base : ModifierObject) : ModifierObject :=
  ((ofKind base.modifier.kind own)[(ofKind base.modifier.kind earlier).length]?.map fun m => m.inherit fresh base).getD base

theorem kind_standing : (standing own earlier fresh b).modifier.kind = b.modifier.kind := by
  rw [standing]
  cases found : (ofKind b.modifier.kind own)[(ofKind b.modifier.kind earlier).length]? with
  | none => rfl
  | some m => exact ModifierObject.kind_inherit (mem_ofKind.mp (List.mem_of_getElem? found)).2

/-- Of each kind, the own modifiers that were not used are those left when each earlier one of the base took one. -/
def Used (own earlier : List ModifierObject) (used : List Identity) : Prop :=
  ∀ kind, ofKind kind (own.filter fun m => !used.contains m.id) = (ofKind kind own).drop (ofKind kind earlier).length

/-- The own modifier that is used next is the one of the same rank. -/
theorem Used.match?_eq (ready : Used own earlier used) (b : ModifierObject) :
    match? own used b = (ofKind b.modifier.kind own)[(ofKind b.modifier.kind earlier).length]? := by
  rw [← List.head?_drop,← ready,match?,← List.head?_filter,ofKind,List.filter_filter]

theorem filter_used (m : ModifierObject) : (own.filter fun n => !(m.id :: used).contains n.id) =
    (own.filter fun n => !used.contains n.id).filter fun n => n.id != m.id := by
  rw [List.filter_filter]
  refine List.filter_congr fun n _ => ?_
  rw [List.contains_cons,Bool.not_or]
  rfl

theorem Used.pass (ready : Used own earlier used) (none : match? own used b = none) : Used own (earlier ++ [b]) used := by
  intro kind
  rw [ready,ofKind_append,List.length_append]
  by_cases same : b.modifier.kind = kind
  · subst same
    rw [ready.match?_eq,List.getElem?_eq_none_iff] at none
    rw [List.drop_of_length_le none,List.drop_of_length_le (by omega)]
  · rw [ofKind_other same]
    rfl

theorem Used.take (distinct : (own.map ModifierObject.id).Nodup) (ready : Used own earlier used) (found : match? own used b = some m) :
    Used own (earlier ++ [b]) (m.id :: used) := by
  rw [ready.match?_eq] at found
  obtain ⟨inside,of_kind⟩ := mem_ofKind.mp (List.mem_of_getElem? found)
  -- An own modifier with the identity of `m` is `m`.
  have only (n : ModifierObject) (member : n ∈ own) (same : n.id = m.id) : n = m := List.inj_on_of_nodup_map distinct member inside same
  intro kind
  rw [filter_used,ofKind,List.filter_comm,← ofKind,ready,ofKind_append,List.length_append]
  by_cases same : b.modifier.kind = kind
  · subst same
    have cut : (ofKind b.modifier.kind own).drop (ofKind b.modifier.kind earlier).length =
        m :: (ofKind b.modifier.kind own).drop ((ofKind b.modifier.kind earlier).length + 1) := by
      rw [List.drop_eq_getElem?_toList_append,found]
      rfl
    have apart : (m.id :: ((ofKind b.modifier.kind own).drop ((ofKind b.modifier.kind earlier).length + 1)).map ModifierObject.id).Nodup := by
      rw [← List.map_cons,← cut]
      exact ((List.drop_sublist _ _).trans List.filter_sublist).map _ |>.nodup distinct
    rw [cut,List.filter_cons_of_neg (by simp),ofKind_same,List.length_singleton,List.filter_eq_self]
    intro n member
    have differ : n.id ≠ m.id := fun equal => (List.nodup_cons.mp apart).1 (equal ▸ List.mem_map_of_mem member)
    simpa using differ
  · rw [ofKind_other same,List.length_nil,Nat.add_zero,List.filter_eq_self]
    intro n member
    obtain ⟨listed,kind_n⟩ := mem_ofKind.mp (List.mem_of_mem_drop member)
    have differ : n.id ≠ m.id := fun equal => same (by rw [← of_kind,← only n listed equal,kind_n])
    simpa using differ

/-- A modifier of the base either stays or gives way to the own one of its rank, which is used from then on. -/
theorem Used.next (distinct : (own.map ModifierObject.id).Nodup) (ready : Used own earlier used) (b : ModifierObject) :
    ∃ used', Used own (earlier ++ [b]) used' ∧ ∀ fresh rest, inheritAll own fresh used (b :: rest) =
      (standing own earlier fresh b :: (inheritAll own (fresh + 1) used' rest).1,(inheritAll own (fresh + 1) used' rest).2) := by
  have place := ready.match?_eq b
  cases found : match? own used b with
  | none =>
    refine ⟨used,ready.pass found,fun fresh rest => ?_⟩
    rw [inheritAll,found,standing,← place,found]
    rfl
  | some m =>
    refine ⟨m.id :: used,ready.take distinct found,fun fresh rest => ?_⟩
    rw [inheritAll,found,standing,← place,found]
    rfl

/-- All modifiers of the base, one after another. -/
theorem Used.inheritAll (distinct : (own.map ModifierObject.id).Nodup) (ready : Used own earlier used) :
    (inheritAll own fresh used base).1.length = base.length ∧
      (∀ i b, base[i]? = some b →
        (inheritAll own fresh used base).1[i]? = some (standing own (earlier ++ base.take i) (fresh + i) b)) ∧
      Used own (earlier ++ base) (inheritAll own fresh used base).2 := by
  induction base generalizing fresh used earlier with
  | nil => exact ⟨rfl,by simp,by simpa [Declaration.inheritAll] using ready⟩
  | cons b rest ih =>
    obtain ⟨used',ready,one⟩ := ready.next distinct b
    obtain ⟨sizes,places,ended⟩ := @ih (earlier ++ [b]) used' (fresh + 1) ready
    rw [one]
    refine ⟨congrArg Nat.succ sizes,fun i b' place => ?_,by rwa [List.append_assoc] at ended⟩
    cases i with
    | zero =>
      obtain rfl := Option.some.inj place
      simp
    | succ i =>
      have there := places i b' place
      rw [List.append_assoc] at there
      simpa [Nat.add_assoc,Nat.add_comm 1 i] using there

/-- Merging goes by place. Each modifier of the base keeps its place or gives way to the own modifier that has its kind and its
rank among those of that kind; then the own modifiers follow, in their order, that have no partner in the base. -/
theorem merge_positional {own base : Declaration} (distinct : (own.modifiers.map ModifierObject.id).Nodup) (fresh : Identity) :
    ∃ placed left, (merge fresh own base).modifiers = placed ++ left ∧ placed.length = base.modifiers.length ∧
      (∀ i b, base.modifiers[i]? = some b →
        placed[i]? = some (standing own.modifiers (base.modifiers.take i) (fresh + i) b)) ∧
      left.Sublist own.modifiers ∧
      ∀ kind, ofKind kind left = (ofKind kind own.modifiers).drop (ofKind kind base.modifiers).length := by
  have start : Used own.modifiers [] [] := fun kind => by simp [ofKind]
  obtain ⟨sizes,places,ended⟩ := @Used.inheritAll own.modifiers base.modifiers [] [] fresh distinct start
  exact ⟨_,_,rfl,sizes,places,List.filter_sublist,ended⟩

/-- Each kind is as frequent in what is merged as in the list that has more of it. -/
theorem merge_count {own base : Declaration} (distinct : (own.modifiers.map ModifierObject.id).Nodup) (fresh : Identity) (kind : Text) :
    (ofKind kind (merge fresh own base).modifiers).length =
      max (ofKind kind own.modifiers).length (ofKind kind base.modifiers).length := by
  obtain ⟨placed,left,merged,sizes,places,_,rest⟩ := @merge_positional own base distinct fresh
  have kinds : placed.map (fun m => m.modifier.kind) = base.modifiers.map fun m => m.modifier.kind := by
    refine List.ext_getElem? fun i => ?_
    rw [List.getElem?_map,List.getElem?_map]
    cases there : base.modifiers[i]? with
    | none => rw [List.getElem?_eq_none (by rw [sizes]; exact List.getElem?_eq_none_iff.mp there)]
    | some b => rw [places i b there]; exact congrArg some kind_standing
  have count (ms : List ModifierObject) : (ofKind kind ms).length = (ms.map fun m => m.modifier.kind).count kind := by
    rw [ofKind,← List.countP_eq_length_filter,List.count,List.countP_map]
    rfl
  rw [merged,ofKind_append,List.length_append,rest,List.length_drop,count placed,kinds,← count]
  omega

/-- Of one own modifier that is listed twice, only the occurrence in the base's place is left. -/
example : (merge 9 ⟨none,[⟨1,.visibility true⟩,⟨1,.visibility true⟩]⟩ ⟨none,[⟨2,.visibility false⟩]⟩).modifiers.length = 1 := by
  decide

end Declaration
end ConfTree
