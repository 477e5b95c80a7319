import Mathlib.Tactic.IntervalCases
import ConfTree.Configuration
import ConfTree.Proofs.Addresses.Form
import ConfTree.Proofs.Discipline.Evaluation
import ConfTree.Proofs.WellFormed

/-!
# Walks along addresses

In a settled tree (`Store.Settled`) a step of an address only looks: it leads from what stands in a place to what stands in another
one, or throws (`Store.Settled.step`). So a walk goes on where another one ended, and the walk along two addresses with a run of
points between them is that along the first one, up some containers, and along the second one (`walk_append`).
-/
namespace ConfTree

open StoreM Navigate

/-! ## Ends -/

section Ends

variable {α β : Type} {a b : StoreM α} {f g : α → StoreM β} {s : Store}

/-- From a store two actions end alike: with the same value and the same store, or each with something thrown. -/
structure EndsAlike (s : Store) (a b : StoreM α) : Prop where
  ok : ∀ v t, Runs a s (.ok v) t ↔ Runs b s (.ok v) t
  error : (∃ e t, Runs a s (.error e) t) ↔ ∃ e t, Runs b s (.error e) t

namespace EndsAlike

theorem refl (s : Store) (a : StoreM α) : EndsAlike s a a := ⟨fun _ _ => .rfl,.rfl⟩

theorem trans {c : StoreM α} (first : EndsAlike s a b) (second : EndsAlike s b c) : EndsAlike s a c :=
  ⟨fun v t => (first.ok v t).trans (second.ok v t),first.error.trans second.error⟩

theorem throwCause (first second : Cause) : EndsAlike s (throwCause first : StoreM α) (throwCause second) :=
  ⟨fun _ _ => ⟨fun run => (throwCause_fails run).elim,fun run => (throwCause_fails run).elim⟩,⟨fun _ => ⟨_,_,rfl⟩,fun _ => ⟨_,_,rfl⟩⟩⟩

theorem bind (first : EndsAlike s a b) (rest : ∀ v t, Runs a s (.ok v) t → EndsAlike t (f v) (g v)) :
    EndsAlike s (a >>= f) (b >>= g) := by
  refine ⟨fun w u => ⟨?_,?_⟩,⟨?_,?_⟩⟩
  · intro run
    obtain ⟨v,t,before,after⟩ := run.bind_ok
    exact ((first.ok v t).mp before).bind (((rest v t before).ok w u).mp after)
  · intro run
    obtain ⟨v,t,before,after⟩ := run.bind_ok
    have before := (first.ok v t).mpr before
    exact before.bind (((rest v t before).ok w u).mpr after)
  · rintro ⟨e,u,run⟩
    rcases run.bind_inv with ⟨v,t,before,after⟩ | ⟨_,thrown,_⟩
    · obtain ⟨e,u,after⟩ := (rest v t before).error.mp ⟨e,u,after⟩
      exact ⟨e,u,((first.ok v t).mp before).bind after⟩
    · obtain ⟨e,u,thrown⟩ := first.error.mp ⟨_,_,thrown⟩
      exact ⟨e,u,thrown.bind_error⟩
  · rintro ⟨e,u,run⟩
    rcases run.bind_inv with ⟨v,t,before,after⟩ | ⟨_,thrown,_⟩
    · have before := (first.ok v t).mpr before
      obtain ⟨e,u,after⟩ := (rest v t before).error.mpr ⟨e,u,after⟩
      exact ⟨e,u,before.bind after⟩
    · obtain ⟨e,u,thrown⟩ := first.error.mpr ⟨_,_,thrown⟩
      exact ⟨e,u,thrown.bind_error⟩

theorem foldlM {γ : Type} {f g : α → γ → StoreM α} (each : ∀ v c s, EndsAlike s (f v c) (g v c)) (cs : List γ) (v : α) (s : Store) :
    EndsAlike s (cs.foldlM f v) (cs.foldlM g v) := by
  induction cs generalizing v s with
  | nil => exact .refl s _
  | cons c rest ih =>
    rw [List.foldlM_cons,List.foldlM_cons]
    exact (each v c s).bind fun w t _ => ih w t

end EndsAlike

/-- From a store an action only looks: where it ends with a value, that has a property, and the store is the same. -/
def Finds (s : Store) (p : α → Prop) (a : StoreM α) : Prop := ∀ v t, Runs a s (.ok v) t → t = s ∧ p v

namespace Finds

variable {p : α → Prop} {q : β → Prop}

theorem pure {v : α} (holds : p v) : Finds s p (Pure.pure v) := by
  intro w t run
  obtain ⟨same,rfl⟩ := Runs.pure_iff.mp run
  exact ⟨rfl,Except.ok.inj same ▸ holds⟩

theorem throwCause (cause : Cause) : Finds s p (throwCause cause) := fun _ _ run => (throwCause_fails run).elim

theorem bind (first : Finds s p a) (rest : ∀ v, p v → Finds s q (f v)) : Finds s q (a >>= f) := by
  intro w u run
  obtain ⟨v,t,before,after⟩ := run.bind_ok
  obtain ⟨rfl,holds⟩ := first v t before
  exact rest v holds w u after

/-- What is read from the store goes before. -/
theorem after {v : α} (read : Runs a s (.ok v) s) (rest : Finds s q (f v)) : Finds s q (a >>= f) :=
  fun w u run => rest w u ((Runs.bind_iff read).mp run)

theorem nameOf (id : NodeId) : Finds s (fun _ => True) (nameOf id) := by
  refine .after get_run ?_
  split
  · exact .pure trivial
  · intro v t run
    cases (Runs.throw_iff.mp run).1
  · exact .throwCause _

theorem foldlM {γ : Type} {f : α → γ → StoreM α} (each : ∀ v c, p v → Finds s p (f v c)) (cs : List γ) {v : α} (holds : p v) :
    Finds s p (cs.foldlM f v) := by
  induction cs generalizing v with
  | nil => exact .pure holds
  | cons c rest ih =>
    rw [List.foldlM_cons]
    exact (each v c holds).bind fun w holds => ih holds

end Finds

end Ends

/-! ## Settled trees -/

/-- Whether nothing is left to be done below a node of this body before its children are selected. -/
def Body.isSettled : Body → Bool
  | .scalar .. => true
  | .sequence _ _ isSettled => isSettled
  | .mapping _ isSettled => isSettled
  | .entry _ _ _ _ modification _ =>
    match modification with
    | .done _ | .failed _ => true
    | .pending | .active => false

namespace Store

variable {s : Store} {tree : NodeId → Prop} {id : NodeId}

/-- A tree that is settled: nodes whose links lead to nodes of it only, where the way from each one to what took its place ends, no
entry of a mapping was replaced, and nothing is left to be done at those that stand in their places. -/
structure Settled (s : Store) (tree : NodeId → Prop) : Prop where
  current : ∀ id, tree id → tree (s.current id) ∧ s.Live (s.current id)
  above : ∀ id p, tree id → s.Live id → (s.node id).parent = some p → tree p
  below : ∀ id c, tree id → s.Live id → c ∈ s.below id → tree c
  entries : ∀ id e, tree id → s.Live id → e ∈ s.entries id → s.Live e
  settled : ∀ id, tree id → s.Live id → (s.node id).body.isSettled = true

/-- A node of a tree that stands in its place. -/
def Stands (s : Store) (tree : NodeId → Prop) (id : NodeId) : Prop := tree id ∧ s.Live id

theorem slot_below (id : NodeId) : s.slot id = id ∨ s.slot id ∈ s.below id := by
  rw [slot,below]
  cases (s.node id).body with
  | entry => exact .inr (List.mem_singleton.mpr rfl)
  | _ => exact .inl rfl

namespace Settled

variable (settled : s.Settled tree)
include settled

theorem stands_current (inside : tree id) : s.Stands tree (s.current id) := settled.current id inside

theorem stands_entryValue (stands : s.Stands tree id) : s.Stands tree (s.entryValue id) := by
  refine settled.stands_current ?_
  rcases slot_below id with same | place
  · rw [same]
    exact stands.1
  · exact settled.below id _ stands.1 stands.2 place

theorem stands_above {p : NodeId} (inside : tree id) (above : s.above? id = some p) : s.Stands tree p := by
  obtain ⟨q,parent,rfl⟩ := Option.map_eq_some_iff.mp above
  obtain ⟨here,live⟩ := settled.current id inside
  exact settled.stands_current (settled.above _ q here live parent)

theorem stands_findEntry {e : NodeId} {key : Text} (stands : s.Stands tree id) (found : s.findEntry id key = some e) : s.Stands tree e := by
  have member : e ∈ s.entries id := List.mem_of_find?_eq_some found
  exact ⟨settled.below id e stands.1 stands.2 (mem_entries.mp member).2,settled.entries id e stands.1 stands.2 member⟩

theorem settle (host : Host) (depth : Nat) (stands : s.Stands tree id) : Finds s (fun _ => True) ((Calls.ofDepth host depth).settle id) := by
  cases depth with
  | zero => exact fun _ _ run => (Runs.unending_iff run).elim
  | succ depth =>
    have finished := settled.settled id stands.1 stands.2
    refine .after getNode_run ?_
    cases body : (s.node id).body with
    | scalar => exact .pure trivial
    | sequence items declared isSettled =>
      rw [body] at finished
      obtain rfl : isSettled = true := finished
      exact .pure trivial
    | mapping entries isSettled =>
      rw [body] at finished
      obtain rfl : isSettled = true := finished
      exact .pure trivial
    | entry head slot declared renamed modification evaluated =>
      rw [body] at finished
      cases modification with
      | done => exact .pure trivial
      | failed fault =>
        intro v t run
        cases (Runs.throw_iff.mp run).1
      | pending | active => cases finished

theorem entryValue (host : Host) (depth : Nat) (stands : s.Stands tree id) :
    Finds s (s.Stands tree) (Navigate.entryValue (Calls.ofDepth host depth) id) :=
  (settled.settle host depth stands).bind fun _ _ => .after get_run (.pure (settled.stands_entryValue stands))

/-- What is selected stands in a place of the tree. -/
theorem select (host : Host) (depth : Nat) (selector : Selector) (stands : s.Stands tree id)
    (inside : ∀ id, tree id → Finds s (s.Stands tree) ((Calls.ofDepth host depth).child id selector)) :
    Finds s (s.Stands tree) (selectChild (Calls.ofDepth host depth) id selector) := by
  have nowhere (issue : Text → AddressIssue) : Finds s (s.Stands tree) (do throwCause (.address (issue (← nameOf id)))) :=
    (Finds.nameOf id).bind fun _ _ => .throwCause _
  rw [selectChild_eq]
  refine .after getNode_run ?_
  cases body : (s.node id).body with
  | scalar => exact nowhere _
  | entry => exact (settled.entryValue host depth stands).bind fun value stands => inside value stands.1
  | sequence items declared isSettled =>
    cases selector with
    | key => exact nowhere _
    | index index =>
      have place : Finds s (fun _ => True) (itemPlace id items.length index) := by
        unfold itemPlace
        split
        · exact (Finds.nameOf id).bind fun _ _ => .throwCause _
        · extract_lets place
          split
          · have none (name : Text) : Finds s (fun _ => False)
                (throwCause (.address (.sequenceRange index name items.length)) : StoreM Unit) := .throwCause _
            exact (Finds.nameOf id).bind fun name _ => (none name).bind fun _ impossible => impossible.elim
          · exact .pure trivial
      refine place.bind fun i _ => .after get_run (.pure (settled.stands_current ?_))
      cases found : items[i]? with
      | none => exact stands.1
      | some item =>
        refine settled.below id item stands.1 stands.2 ?_
        rw [Store.below,body]
        exact List.mem_of_getElem? found
  | mapping entries isSettled =>
    cases selector with
    | index => exact nowhere _
    | key key =>
      have entry : Finds s (fun found => s.Stands tree found.1) (selectEntry id key) := by
        refine (Finds.nameOf id).bind fun _ _ => .after get_run ?_
        split
        · next e found => exact .pure (settled.stands_findEntry stands found)
        · exact .throwCause _
      refine entry.bind ?_
      rintro ⟨e,entryOnly⟩ stands
      cases entryOnly with
      | true => exact .pure stands
      | false => exact settled.entryValue host depth stands

theorem child (host : Host) (depth : Nat) (selector : Selector) (inside : tree id) :
    Finds s (s.Stands tree) ((Calls.ofDepth host depth).child id selector) := by
  induction depth generalizing id with
  | zero => exact fun _ _ run => (Runs.unending_iff run).elim
  | succ depth ih =>
    have stands := settled.stands_current inside
    have here : Finds s (s.Stands tree) (Navigate.settled (Calls.ofDepth host depth) id) := by
      refine .after current_run ((settled.settle host depth stands).bind fun _ _ => .after getNode_run ?_)
      rw [stands.2]
      exact .pure stands
    exact here.bind fun node stands => settled.select host depth selector stands fun id inside => ih inside

theorem ascend (address : Text) (inside : tree id) : Finds s (s.Stands tree) (Navigate.ascend address id) := by
  refine .after get_run ?_
  dsimp only
  split
  · next c found =>
    refine .pure ?_
    split at found
    · next p above =>
      have stands := settled.stands_above inside above
      split at found
      · exact settled.stands_above stands.1 found
      · exact Option.some.inj found ▸ stands
    · cases found
  · exact .throwCause _

theorem ascendBy (address : Text) (levels : Nat) (stands : s.Stands tree id) :
    Finds s (s.Stands tree) (Navigate.ascendBy address levels id) := by
  induction levels generalizing id with
  | zero => exact .pure stands
  | succ levels ih => exact (settled.ascend address stands.1).bind fun _ stands => ih stands

/-- A step leads from what stands in a place to what stands in a place. -/
theorem step (host : Host) (depth : Nat) (address : Text) (step : Step) (stands : s.Stands tree id) :
    Finds s (s.Stands tree) (Navigate.step (Calls.ofDepth host depth) address id step) := by
  cases step with
  | ascend levels => exact settled.ascendBy address levels stands
  | select selector => exact settled.child host depth selector stands.1

theorem walk (host : Host) (depth : Nat) (address : Text) (steps : List Step) (stands : s.Stands tree id) :
    Finds s (s.Stands tree) (steps.foldlM (Navigate.step (Calls.ofDepth host depth) address) id) :=
  .foldlM (fun _ step stands => settled.step host depth address step stands) steps stands

end Settled

/-- In a well-formed store the session's tree is settled, nodes that were replaced in it included, if nothing is left to be done at any
node from the root down. -/
theorem WellFormed.settled (form : s.WellFormed) (rooted : (s.node s.session.root).isBound = true)
    (finished : ∀ id, Reachable s id → (s.node id).body.isSettled = true) : s.Settled fun id => Reachable s (s.current id) where
  current id inside := by
    have live := form.current_live id
    exact ⟨by rwa [current_of_live live],live⟩
  above id p inside live parent := by
    rw [current_of_live live] at inside
    cases inside with
    | root =>
      rw [(form.bound _ rooted).2.2] at parent
      cases parent
    | @place c _ above member =>
      obtain ⟨_,upward⟩ := (form.seats_reachable rooted above).2 id member
      obtain rfl : c = p := Option.some.inj (upward.symm.trans parent)
      rwa [current_of_live (form.seats_reachable rooted above).1]
  below id c inside live member := by
    rw [current_of_live live] at inside
    rw [current_of_live ((form.seats_reachable rooted inside).2 c member).1]
    exact .place inside member
  entries id e inside live member := (form.member member).2
  settled id inside live := finished id (by rwa [current_of_live live] at inside)

end Store

/-! ## Walks -/

section Walks

variable {s : Store} {tree : NodeId → Prop} {a b : Text} {first second : List Step} {n : Nat}

/-- The text that is reported makes no difference to where a step leads. -/
theorem step_alike (calls : Calls) (t u : Text) (id : NodeId) (step : Step) (s : Store) :
    EndsAlike s (Navigate.step calls t id step) (Navigate.step calls u id step) := by
  have up (id : NodeId) (s : Store) : EndsAlike s (ascend t id) (ascend u id) := by
    refine (EndsAlike.refl s _).bind fun v w _ => ?_
    dsimp only
    split
    · exact .refl w _
    · exact .throwCause _ _
  cases step with
  | select selector => exact .refl s _
  | ascend levels =>
    show EndsAlike s (ascendBy t levels id) (ascendBy u levels id)
    induction levels generalizing id s with
    | zero => exact .refl s _
    | succ levels ih => exact (up id s).bind fun v w _ => ih v w

theorem fromAddress_eq {calls : Calls} {x : NodeId} (read : Address.parse a = .ok first) :
    fromAddress calls x a = (do first.foldlM (step calls a) (← current x)) := by
  rw [fromAddress,read]

/-- In a settled tree the walk along two addresses with a run of points between them is that along the first one, up as many
containers as there are points but one, and along the second one. -/
theorem walk_append (settled : s.Settled tree) {x : NodeId} (inside : tree x) (host : Host) (depth : Nat)
    (left : Address.parse a = .ok first) (right : Address.parse b = .ok second)
    (joined : Address.parse (a ++ ⟨Address.points n⟩ ++ b) = .ok (first ++ Address.ascent n ++ second)) (quoted : Text) :
    EndsAlike s (fromAddress (Calls.ofDepth host depth) x (a ++ ⟨Address.points n⟩ ++ b)) (do
      let y ← fromAddress (Calls.ofDepth host depth) x a
      let z ← ascendBy quoted (n - 1) y
      fromAddress (Calls.ofDepth host depth) z b) := by
  have change (t : Text) (steps : List Step) (id : NodeId) (s : Store) :
      EndsAlike s (steps.foldlM (step (Calls.ofDepth host depth) (a ++ ⟨Address.points n⟩ ++ b)) id)
        (steps.foldlM (step (Calls.ofDepth host depth) t) id) :=
    .foldlM (fun id step s => step_alike _ _ t id step s) steps id s
  have stands := settled.stands_current inside
  rw [fromAddress_eq joined,fromAddress_eq left,bind_assoc]
  refine (EndsAlike.refl s _).bind fun start t read => ?_
  obtain ⟨same,rfl⟩ := Runs.unique current_run read
  obtain rfl := Except.ok.inj same
  rw [List.foldlM_append,List.foldlM_append,bind_assoc]
  refine (change a first _ s).bind fun y t walked => ?_
  obtain ⟨rfl,stands⟩ := settled.walk host depth _ first stands y t walked
  have up : EndsAlike t ((Address.ascent n).foldlM (step (Calls.ofDepth host depth) (a ++ ⟨Address.points n⟩ ++ b)) y)
      (ascendBy quoted (n - 1) y) := by
    unfold Address.ascent
    split
    · simp only [List.foldlM_cons,List.foldlM_nil,bind_pure]
      exact step_alike (Calls.ofDepth host depth) _ quoted y (.ascend (n - 1)) t
    · obtain none : n - 1 = 0 := by omega
      rw [none]
      exact .refl t _
  refine up.bind fun z u risen => ?_
  obtain ⟨rfl,stands⟩ := settled.walk host depth _ (Address.ascent n) stands z u risen
  rw [fromAddress_eq right]
  have here : Runs (current z) u (.ok z) u := by
    have found : Runs (current z) u (.ok (u.current z)) u := current_run
    rwa [Store.current_of_live stands.2] at found
  refine (change b second z u).trans ⟨fun v w => ?_,?_⟩
  · rw [Runs.bind_iff here]
  · simp only [Runs.bind_iff here]

/-- Exactly the texts of the form of an address are read, with the steps of their tokens. For an address that does not end in a point
and one that does not start with one, the steps with a run of points between them are those of the first one, an ascent of one level
less than there are points, if there is one, and those of the second one; and in a settled tree, from every node, the walk leads to the
node to which the walk along the first one, the ascent and the walk along the second one lead, or throws if one of these throws. -/
theorem addresses_compose :
    (∀ t steps, Address.parse t = .ok steps ↔ Address.Reads 0 t.units steps) ∧
    (∀ t steps, Address.parse t = .ok steps → steps = (Address.tokens t.units).flatMap Address.tokenSteps) ∧
    ∀ a b first second n, Address.parse a = .ok first → Address.parse b = .ok second →
      a.units.getLast? ≠ some (CodeUnit.ofChar '.') → b.units.head? ≠ some (CodeUnit.ofChar '.') → 1 ≤ n →
      Address.parse (a ++ ⟨Address.points n⟩ ++ b) = .ok (first ++ (if n > 1 then [.ascend (n - 1)] else []) ++ second) ∧
      ∀ s tree, Store.Settled s tree → ∀ x, tree x → ∀ host depth quoted,
        EndsAlike s (fromAddress (Calls.ofDepth host depth) x (a ++ ⟨Address.points n⟩ ++ b)) (do
          let y ← fromAddress (Calls.ofDepth host depth) x a
          let z ← ascendBy quoted (n - 1) y
          fromAddress (Calls.ofDepth host depth) z b) := by
  refine ⟨fun t steps => Address.parse_iff,fun t steps read => (Address.parse_iff.mp read).tokens,?_⟩
  intro a b first second n left right closed opened positive
  have joined := Address.parse_append left right closed opened positive
  exact ⟨joined,fun s tree settled x inside host depth quoted => walk_append settled inside host depth left right joined quoted⟩

/-- The settled tree of a mapping with a list of one item under the key `a`. -/
def Store.listed : Store :=
  { Store.empty 0 with nodes := #[
    { Node.fresh (.mapping [1] true) with isBound := true },
    { Node.fresh (.entry ⟨⟨"a",.none⟩,none⟩ 2 2 none (.done ()) none) with parent := some 0 },
    { Node.fresh (.sequence [3] [3] true) with parent := some 1 },
    { Node.fresh (.scalar (.bool true) none) with parent := some 2 }] }

theorem listed_settled : Store.listed.Settled (· < 4) where
  current id inside := by
    interval_cases id <;> exact ⟨by decide,rfl⟩
  above id p inside live parent := by
    interval_cases id <;> cases parent <;> decide
  below id c inside live member := by
    interval_cases id
    case «3» => cases member
    all_goals
      obtain rfl := List.mem_singleton.mp member
      decide
  entries id e inside live member := by
    interval_cases id
    case «0» =>
      obtain rfl := List.mem_singleton.mp member
      rfl
    all_goals cases member
  settled id inside live := by
    interval_cases id <;> rfl

/-- From the item of the list up to the mapping, down to the list, up again and down to the entry. -/
theorem listed_walk : Address.parse "...a..*a" = .ok [.ascend 2,.select (.key "a"),.ascend 1,.select (.key "*a")] ∧
    Runs (do
      let y ← fromAddress (Calls.ofDepth (.bare [] "/") 2) 3 "...a"
      let z ← ascendBy "..." 1 y
      fromAddress (Calls.ofDepth (.bare [] "/") 2) z "*a") .listed (.ok 1) .listed := by
  have composed := addresses_compose.2.2 "...a" "*a" [.ascend 2,.select (.key "a")] [.select (.key "*a")] 2
    rfl rfl (by decide) (by decide) (by decide)
  have alike := composed.2 .listed (· < 4) listed_settled 3 (by decide) (.bare [] "/") 2 "..."
  exact ⟨composed.1,(alike.ok 1 .listed).mp rfl⟩

end Walks
end ConfTree
