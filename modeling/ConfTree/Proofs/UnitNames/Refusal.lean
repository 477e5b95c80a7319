import ConfTree.Proofs.UnitNames.Paths
import ConfTree.Proofs.WellFormed.Configuration

/-!
# Refused names of units

A malformed name is refused before anything is done for it: no path is looked up and no file is read, whatever the directory
holds; nothing is loaded or copied, whatever loader there is; and where the name was put together from the group of a modifier and
what its node was found to hold, the modifier does nothing after the checks of the place but refuse the name. So the names of units
cannot leave the directory of the units (`UnitName.confined`).
-/
namespace ConfTree

open StoreM

namespace Store

variable {s : Store}

/-- The units around a node are found where the way upward ends. -/
theorem enclosingUnitsFrom_ends {n id steps : Nat} {found : List Text} (height : Height s.above? n id) (room : n < steps) :
    ∃ units, s.enclosingUnitsFrom steps found id = some units := by
  induction height generalizing steps found with
  | @top id ends =>
    obtain ⟨steps,rfl⟩ : ∃ k, steps = k + 1 := ⟨steps - 1,by omega⟩
    rw [enclosingUnitsFrom,ends]
    exact ⟨_,rfl⟩
  | @step n id above next _ ih =>
    obtain ⟨steps,rfl⟩ : ∃ k, steps = k + 1 := ⟨steps - 1,by omega⟩
    rw [enclosingUnitsFrom,next]
    exact ih (by omega)

theorem WellFormed.enclosingUnits (form : s.WellFormed) (id : Nat) : ∃ units, s.enclosingUnits id = some units := by
  obtain ⟨n,height,room⟩ := form.height_above id
  exact enclosingUnitsFrom_ends height (Nat.lt_succ_of_le room)

end Store

section Refusals

variable {u : Text} (malformed : UnitName.IsMalformed u)
include malformed

namespace UnitDirectory

theorem candidates_malformed (d : UnitDirectory) : d.candidates u = .error (.construction (.unitName u) none) := by
  rw [candidates,UnitName.validate_malformed malformed]
  rfl

theorem load_malformed (d : UnitDirectory) : d.load u = .error (.cause (.construction (.unitName u) none)) := by
  rw [load,candidates_malformed malformed]
  rfl

end UnitDirectory

theorem StoreM.instantiate_malformed_run (s : Store) :
    Runs (instantiate u) s (.error (.fault s.faults.size)) (s.reporting (.construction (.unitName u) none)) := by
  have named : Runs (discard (orThrow (UnitName.validate u))) s (.error (.fault s.faults.size))
      (s.reporting (.construction (.unitName u) none)) := by
    rw [UnitName.validate_malformed malformed]
    exact (throwCause_run s _).map_error
  have refused : Runs (template u) s (.error (.fault s.faults.size)) (s.reporting (.construction (.unitName u) none)) :=
    named.bind_error
  exact refused.bind_error

/-- Whatever would be done with an instance, the name is refused before. -/
theorem StoreM.instantiate_malformed {α : Type} (rest : NodeId → StoreM α) :
    (instantiate u >>= rest) = throwCause (.construction (.unitName u) none) := by
  funext s
  exact ((instantiate_malformed_run malformed s).bind_error (f := rest)).trans (throwCause_run s _).symm

end Refusals

/-! ## The modifier -/

namespace Modify

variable {calls : Calls} {node : NodeId} {group : Option Text} {vars : Pairs} {s t : Store} {v : Value} {u : Text}

/-- What is done for a malformed name after the value of the node was found: the place is checked and the name refused. -/
def refuseName (node : NodeId) (u : Text) : StoreM (Option NodeId) := do
  checkNesting node u
  requireSession node
  throwCause (.construction (.unitName u) none)

theorem refuseName_fails {id : Option NodeId} : ¬ Runs (refuseName node u) s (.ok id) t := fun run => by
  obtain ⟨_,_,_,run⟩ := Runs.bind_ok run
  obtain ⟨_,_,_,run⟩ := Runs.bind_ok run
  exact throwCause_fails run

theorem checkNesting_inside_run {units : List Text} (found : s.enclosingUnits node = some units) (inside : units.contains u = true) :
    Runs (checkNesting node u) s (.error (.fault s.faults.size)) (s.reporting (.cycle (units.dropWhile (· != u) ++ [u]) none)) := by
  refine get_run.bind ?_
  rw [found]
  dsimp only
  rw [if_pos inside]
  exact throwCause_run _ _

theorem checkNesting_outside_run {units : List Text} (found : s.enclosingUnits node = some units) (outside : ¬ units.contains u = true) :
    Runs (checkNesting node u) s (.ok ()) s := by
  refine get_run.bind ?_
  rw [found]
  dsimp only
  rw [if_neg outside]
  exact Runs.ok _ _

theorem refuseName_throws (node : NodeId) (u : Text) (form : s.WellFormed) : ∃ e t, Runs (refuseName node u) s (.error e) t := by
  obtain ⟨units,found⟩ := form.enclosingUnits node
  by_cases inside : units.contains u = true
  · exact ⟨_,_,(checkNesting_inside_run found inside).bind_error⟩
  · have nested := checkNesting_outside_run found inside
    obtain ⟨r,t,attached⟩ := Upkeep.requireSession_ends form node
    cases r with
    | error e => exact ⟨e,t,nested.bind attached.bind_error⟩
    | ok _ => exact ⟨_,_,nested.bind (attached.bind (throwCause_run _ _))⟩

/-- Of a modifier whose node was found to hold a malformed name nothing is left but the refusal. -/
theorem load_iff {r : Except Thrown (Option NodeId)} {w : Store} (scalar : s.kind node = .scalar)
    (resolved : Runs (calls.resolve node) s (.ok v) t) (named : unitName group v = .ok u) (malformed : UnitName.IsMalformed u) :
    Runs (load calls node group vars) s r w ↔ Runs (refuseName node u) t r w := by
  have name : Runs (orThrow (unitName group v)) t (.ok u) t := by
    rw [named]
    exact Runs.ok _ _
  rw [load,Runs.bind_iff kindOf_run]
  simp only [scalar,ne_eq,not_true_eq_false,if_false]
  rw [Runs.bind_iff resolved,Runs.bind_iff name]
  simp only [instantiate_malformed malformed]
  rfl

/-- A node that holds an empty text names no unit, within a group or not. -/
theorem load_empty_run {name : Text} (scalar : s.kind node = .scalar) (resolved : Runs (calls.resolve node) s (.ok (.text name)) t)
    (nothing : name.isEmpty = true) : Runs (load calls node group vars) s (.error (.fault t.faults.size))
      (t.reporting (.construction (.loadedName (Value.text name).typeName) none)) := by
  have nameless : unitName group (.text name) = .error (.construction (.loadedName (Value.text name).typeName) none) := if_pos nothing
  rw [load,Runs.bind_iff kindOf_run]
  simp only [scalar,ne_eq,not_true_eq_false,if_false]
  rw [Runs.bind_iff resolved,nameless]
  exact (throwCause_run t _).bind_error

end Modify

/-! ## A text that is read -/

/-- Makes a configuration of one text, and reads it. -/
def Configuration.readText (host : Host) (calls : Calls) (text : Text) : StoreM (NodeKind × Value) := do
  Configuration.createWith host calls ⟨[],[],Registry.standard 0,none,.undefined⟩ (.text text)
  return (← kindOf 0,← calls.resolve 0)

theorem Configuration.readText_inv (host : Host) (depth : Nat) (text : Text)
    (read : (readText host (Calls.watched .steady host depth) text (Store.empty 1)).any (fun p => match p.1 with
      | .ok (.scalar,.text found) => found == text
      | _ => false) = true) :
    ∃ s t, s.kind 0 = .scalar ∧ Runs ((Calls.watched .steady host depth).resolve 0) s (.ok (.text text)) t ∧ t.WellFormed := by
  obtain ⟨⟨r,t⟩,run,found⟩ := (Option.any_eq_true _ _).mp read
  rcases r with _ | ⟨kind,v⟩
  · cases found
  obtain ⟨_,s,created,rest⟩ := Runs.bind_ok (show Runs (readText _ _ _) _ (.ok (kind,v)) t from run)
  obtain ⟨_,_,typed,last⟩ := Runs.bind_ok rest
  obtain ⟨_,_,resolved,given⟩ := Runs.bind_ok last
  obtain ⟨same,rfl⟩ := Runs.unique typed kindOf_run
  obtain ⟨shown,rfl⟩ := Runs.pure_iff.mp given
  cases same
  cases shown
  split at found
  case h_1 name held =>
    obtain ⟨scalar,rfl⟩ := Prod.mk.inj (Except.ok.inj held)
    obtain rfl : name = text := eq_of_beq found
    exact ⟨_,_,scalar,resolved,((Upkeep.ofDepth host depth).resolve 0 _ _ _ (createWith_atRest created).form resolved).1⟩
  case h_2 => cases found

/-- The names of units cannot leave the directory of the units. Each candidate is the resolved directory with the segments of the
name behind it, and at most one of the extensions at its end; it lies strictly below the directory. A malformed name is refused
whatever files and what loader there are, also one that was put together from a group and what a node was found to hold. -/
theorem UnitName.confined :
    (∀ (directory written : Text) (files : Snapshot) (extensions : List Text) (u : Text) (cs : List Text),
      let base := (Path.root.resolve directory).resolve written
      (∀ e ∈ extensions, CodeUnit.ofChar '/' ∉ e.units) → UnitDirectory.candidates ⟨base,files,extensions⟩ u = .ok cs →
        ∀ c ∈ cs, ∃ e, (e = .empty ∨ e ∈ extensions) ∧ c = (UnitDirectory.place base u e).text ∧
          Path.root.resolve c = UnitDirectory.place base u e ∧ (Path.root.resolve c).isBelow base = true) ∧
    (∀ u, IsMalformed u →
      (∀ d : UnitDirectory, d.candidates u = .error (.construction (.unitName u) none) ∧
        d.load u = .error (.cause (.construction (.unitName u) none))) ∧
      (∀ s, Runs (instantiate u) s (.error (.fault s.faults.size)) (s.reporting (.construction (.unitName u) none))) ∧
      ∀ (calls : Calls) (node : NodeId) (group : Option Text) (vars : Pairs) (s t : Store) (v : Value),
        s.kind node = .scalar → Runs (calls.resolve node) s (.ok v) t → Modify.unitName group v = .ok u →
          (∀ r w, Runs (Modify.load calls node group vars) s r w ↔ Runs (Modify.refuseName node u) t r w) ∧
            (∀ id w, ¬ Runs (Modify.load calls node group vars) s (.ok id) w) ∧
            (t.WellFormed → ∃ e w, Runs (Modify.load calls node group vars) s (.error e) w)) ∧
    ∀ (calls : Calls) (node : NodeId) (group : Option Text) (vars : Pairs) (s t : Store) (name : Text),
      s.kind node = .scalar → Runs (calls.resolve node) s (.ok (.text name)) t → name.isEmpty = true →
        Runs (Modify.load calls node group vars) s (.error (.fault t.faults.size))
          (t.reporting (.construction (.loadedName (Value.text name).typeName) none)) := by
  refine ⟨fun directory written files extensions u cs whole found c among => UnitDirectory.candidates_below rfl whole found among,
    fun u malformed => ⟨fun d => ⟨d.candidates_malformed malformed,d.load_malformed malformed⟩,instantiate_malformed_run malformed,?_⟩,
    fun calls node group vars s t name => Modify.load_empty_run⟩
  intro calls node group vars s t v scalar resolved named
  have only (r : Except Thrown (Option NodeId)) (w : Store) :
      Runs (Modify.load calls node group vars) s r w ↔ Runs (Modify.refuseName node u) t r w :=
    Modify.load_iff scalar resolved named malformed
  refine ⟨only,fun id w run => Modify.refuseName_fails ((only _ _).mp run),fun form => ?_⟩
  obtain ⟨e,w,run⟩ := Modify.refuseName_throws node u form
  exact ⟨e,w,(only _ _).mpr run⟩

/-- A unit below its directory, and a name that a group does not keep there, nor an empty one. -/
theorem UnitName.confined_secret :
    let d : UnitDirectory := ⟨(Path.root.resolve "/srv").resolve "units",⟨[]⟩,[".yaml"]⟩
    let calls := Calls.watched .steady (Host.bare [] "") 4
    (Path.root.resolve "/srv/units/models/resnet.yaml").isBelow d.base = true ∧
      d.load "models/../../secret" = .error (.cause (.construction (.unitName "models/../../secret") none)) ∧
      (∃ s t e w, Runs (calls.resolve 0) s (.ok (.text "../../secret")) t ∧
        Runs (Modify.load calls 0 (some "models") []) s (.error e) w) ∧
      ∃ s t e w, Runs (calls.resolve 0) s (.ok (.text .empty)) t ∧ Runs (Modify.load calls 0 (some "models") []) s (.error e) w := by
  intro d calls
  have upward : (".." : Text) ∈ Text.splitOn '/' "models/../../secret" := by decide +kernel
  have malformed : IsMalformed "models/../../secret" := .segment upward (.inr (.inr rfl))
  have candidates : d.candidates "models/resnet" = .ok ["/srv/units/models/resnet.yaml"] := rfl
  obtain ⟨_,_,_,_,below⟩ := confined.1 "/srv" "units" ⟨[]⟩ [".yaml"] "models/resnet" _ (by decide +kernel) candidates _ List.mem_cons_self
  refine ⟨below,((confined.2.1 _ malformed).1 d).2,?_,?_⟩
  · obtain ⟨s,t,scalar,resolved,form⟩ := Configuration.readText_inv (Host.bare [] "") 4 "../../secret" (by decide +kernel)
    obtain ⟨e,w,thrown⟩ := ((confined.2.1 _ malformed).2.2 calls 0 (some "models") [] s t _ scalar resolved (by rfl)).2.2 form
    exact ⟨s,t,e,w,resolved,thrown⟩
  · obtain ⟨s,t,scalar,resolved,_⟩ := Configuration.readText_inv (Host.bare [] "") 4 .empty (by decide +kernel)
    exact ⟨s,t,_,_,resolved,confined.2.2 calls 0 (some "models") [] s t _ scalar resolved rfl⟩

end ConfTree
