import Mathlib.Data.Fintype.Card
import ConfTree.Tree.Store

/-!
The way upward. A way that ends has no more steps than there are nodes, since no node is on it twice
(`Height.le`); so a name is found with the steps that the search for it is given, unless the containers go in
a circle (`Store.name_ends`).
-/
namespace ConfTree

variable {up : Nat → Option Nat} {x y m n : Nat}

/-- The way from a node to its end has so many steps. -/
inductive Height (up : Nat → Option Nat) : Nat → Nat → Prop
  | top {x : Nat} (ends : up x = none) : Height up 0 x
  | step {n x y : Nat} (next : up x = some y) (height : Height up n y) : Height up (n + 1) x

namespace Height

theorem unique (first : Height up m x) (second : Height up n x) : m = n := by
  induction first generalizing n with
  | top ends =>
    cases second with
    | top => rfl
    | step next => rw [ends] at next; cases next
  | step next _ ih =>
    cases second with
    | top ends => rw [ends] at next; cases next
    | step next' height =>
      rw [next] at next'
      obtain rfl := Option.some.inj next'
      rw [ih height]

theorem of_step (height : Height up n x) (next : up x = some y) : ∃ m, n = m + 1 ∧ Height up m y := by
  cases height with
  | top ends => rw [ends] at next; cases next
  | step next' height =>
    rw [next] at next'
    obtain rfl := Option.some.inj next'
    exact ⟨_,rfl,height⟩

/-- Every lower height is that of a node on the way. -/
theorem reaches (height : Height up n x) (lower : m ≤ n) : ∃ y, Height up m y := by
  induction height with
  | top ends =>
    obtain rfl : m = 0 := Nat.le_zero.mp lower
    exact ⟨_,.top ends⟩
  | @step n x y next height ih =>
    by_cases same : m = n + 1
    · exact ⟨x,same ▸ .step next height⟩
    · exact ih (by omega)

/-- A way that leads on from numbers below a bound only has no more steps than that. -/
theorem le {size : Nat} (bounded : ∀ x y : Nat, up x = some y → x < size) (height : Height up n x) : n ≤ size := by
  have node (i : Fin n) : ∃ y : Fin size, Height up (i + 1) y := by
    obtain ⟨y,above⟩ := height.reaches (Nat.succ_le_of_lt i.isLt)
    cases above with
    | step next rest => exact ⟨⟨y,bounded _ _ next⟩,.step next rest⟩
  choose place high using node
  have injective : Function.Injective place := fun i j same => by
    have equal := (high i).unique (same ▸ high j)
    exact Fin.ext (Nat.succ.inj equal)
  simpa using Fintype.card_le_of_injective place injective

/-- A way every step of which is one of a well-founded relation ends. -/
theorem of_acc {r : Nat → Nat → Prop} (steps : ∀ x y, up x = some y → r y x) (accessible : Acc r x) : ∃ n, Height up n x := by
  induction accessible with
  | intro x _ ih =>
    cases next : up x with
    | none => exact ⟨0,.top next⟩
    | some y =>
      obtain ⟨n,height⟩ := ih y (steps x y next)
      exact ⟨n + 1,.step next height⟩

end Height

namespace Store

variable {s : Store}

/-- The container whose name opens that of a node. -/
def namer? (s : Store) (id : Nat) : Option Nat :=
  match (s.node (s.current id)).parent with
  | none => none
  | some p =>
    match (s.node p).body with
    | .entry .. => (s.node p).parent
    | _ => some p

theorem follow_of_size_le {id : Nat} (outside : s.nodes.size ≤ id) (steps : Nat) : s.follow steps id = id := by
  have absent : (s.node id).replacedBy = none := by simp [node,Array.getElem?_eq_none outside]; rfl
  cases steps <;> simp [follow,absent]

theorem old_of_namer? {id above : Nat} (found : s.namer? id = some above) : id < s.nodes.size := by
  by_contra outside
  rw [namer?,current,follow_of_size_le (by omega)] at found
  have absent : (s.node id).parent = none := by simp [node,Array.getElem?_eq_none (Nat.le_of_not_lt outside)]; rfl
  rw [absent] at found
  cases found

theorem old_of_above? {id above : Nat} (found : s.above? id = some above) : id < s.nodes.size := by
  by_contra outside
  rw [above?,current,follow_of_size_le (by omega)] at found
  have absent : (s.node id).parent = none := by simp [node,Array.getElem?_eq_none (Nat.le_of_not_lt outside)]; rfl
  rw [absent] at found
  cases found

/-- A search upward finds something, or the top, where the way ends within its steps. -/
theorem upTo_ends {stop : Node → Bool} {id steps : Nat} (height : Height s.above? n id) (room : n < steps) :
    ∃ top, s.upTo stop steps id = some top := by
  induction height generalizing steps with
  | @top id ends =>
    obtain ⟨steps,rfl⟩ : ∃ k, steps = k + 1 := ⟨steps - 1,by omega⟩
    rw [upTo,ends]
    split <;> exact ⟨_,rfl⟩
  | @step n id above next _ ih =>
    obtain ⟨steps,rfl⟩ : ∃ k, steps = k + 1 := ⟨steps - 1,by omega⟩
    rw [upTo,next]
    split
    · exact ⟨_,rfl⟩
    · exact ih (by omega)

theorem bind_ends {a : Except AddressIssue (List Text)} {f : List Text → Except AddressIssue (List Text)}
    (first : a ≠ .error .endless) (rest : ∀ v, f v ≠ .error .endless) : (a >>= f) ≠ .error .endless := by
  cases a with
  | ok v => exact rest v
  | error issue =>
    intro endless
    cases endless
    exact first rfl

theorem partsUpTo_ends {id steps : Nat} (height : Height s.namer? n id) (room : n < steps) :
    s.partsUpTo steps id ≠ .error .endless := by
  induction height generalizing steps with
  | @top id ends =>
    obtain ⟨steps,rfl⟩ : ∃ k, steps = k + 1 := ⟨steps - 1,by omega⟩
    rw [partsUpTo]
    cases parent : (s.node (s.current id)).parent with
    | none => exact nofun
    | some p =>
      rw [namer?,parent] at ends
      cases body : (s.node p).body with
      | entry =>
        simp only [body] at ends
        simp [childPartsWith,body,ends]
      | _ => simp [body] at ends
  | @step n id above next height ih =>
    obtain ⟨steps,rfl⟩ : ∃ k, steps = k + 1 := ⟨steps - 1,by omega⟩
    have named := ih (show n < steps by omega)
    rw [partsUpTo]
    cases parent : (s.node (s.current id)).parent with
    | none => exact nofun
    | some p =>
      rw [namer?,parent] at next
      dsimp only
      rw [childPartsWith]
      cases body : (s.node p).body with
      | entry =>
        simp only [body] at next
        simp only [next]
        exact bind_ends named fun _ => nofun
      | scalar =>
        simp only [body] at next
        obtain rfl := Option.some.inj next
        exact bind_ends named fun _ => nofun
      | sequence items =>
        simp only [body] at next
        obtain rfl := Option.some.inj next
        dsimp only
        split <;> exact bind_ends named fun _ => nofun
      | mapping entries =>
        simp only [body] at next
        obtain rfl := Option.some.inj next
        dsimp only
        split <;> exact bind_ends named fun _ => nofun

/-- A node has a name, or a reason why it has none, if the way upward ends. -/
theorem name_ends {id : Nat} (height : Height s.namer? n id) : s.name id ≠ .error .endless := by
  have named := partsUpTo_ends height (Nat.lt_succ_of_le (height.le fun _ _ => old_of_namer?))
  intro endless
  rw [name,parts] at endless
  cases outcome : s.partsUpTo (s.nodes.size + 1) id with
  | ok =>
    rw [outcome] at endless
    cases endless
  | error issue =>
    rw [outcome] at endless
    cases endless
    exact named outcome

end Store
end ConfTree
