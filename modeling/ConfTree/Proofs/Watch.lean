import ConfTree.Proofs.Readings
import ConfTree.Proofs.Refinement.Work

/-!
Watched work. A watch says which modifiers may be applied, to which nodes and when; watched work does not end
where its watch is broken. All it comes to, the work on a tree comes to as well (`Calls.watched_below`), so
watched readings are readings in the course of which nothing was done that the watch is set against
(`Readings.of_below`).
-/
namespace ConfTree

open StoreM

/-- Whether a modifier may be applied to a node of a store. -/
abbrev Watch := Modifier → NodeId → Store → Bool

namespace Calls

/-- The watched work on a tree, to a depth of references. -/
def watched (watch : Watch) (host : Host) : Nat → Calls
  | 0 => exhausted
  | depth + 1 => {
      resolve := fun id => Resolve.resolve host (watched watch host depth) id
      settle := fun id => Resolve.settle (watched watch host depth) id
      settled := fun id => Navigate.settled (watched watch host depth) id
      child := fun id selector => Navigate.child (watched watch host depth) id selector
      declaration := fun id => Resolve.declaration host (watched watch host depth) id
      apply := fun m id => do
        if watch m.modifier id (← get) then Modify.apply host (watched watch host depth) m id else unending
      invoke := fun o args keyword => Invoke.object host (watched watch host depth) o args keyword
      operate := Eval.operate }

/-- All that watched work comes to, the work on a tree comes to as well. -/
theorem watched_below (watch : Watch) (host : Host) (depth : Nat) : (watched watch host depth).Below (ofDepth host depth) := by
  induction depth with
  | zero => exact .exhausted _
  | succ depth ih =>
    refine ⟨ih.resolve_step host,ih.settle_step,ih.settled_step,ih.child_step,ih.declaration_step host,
      fun m id s r t run => ?_,ih.object host,fun _ _ _ => .refl _⟩
    have rest := (Runs.bind_iff get_run).mp run
    split at rest
    · exact ih.apply_step host m id s r t rest
    · exact absurd rest Runs.unending_iff

end Calls

variable {calls calls' : Calls} {s t : Store}

/-- What work keeps, all work below it keeps. -/
theorem Discipline.Sound.of_below {D : Discipline} (sound : D.Sound calls') (below : calls.Below calls') : D.Sound calls where
  resolve id s r t fits run := sound.resolve id s r t fits (below.resolve id s r t run)
  settle id s r t fits run := sound.settle id s r t fits (below.settle id s r t run)
  settled id s r t fits run := sound.settled id s r t fits (below.settled id s r t run)
  child id selector s r t fits run := sound.child id selector s r t fits (below.child id selector s r t run)
  declaration id s r t fits run := sound.declaration id s r t fits (below.declaration id s r t run)
  apply m id s r t fits run := sound.apply m id s r t fits (below.apply m id s r t run)
  invoke o args keyword s r t fits run := sound.invoke o args keyword s r t fits (below.invoke o args keyword s r t run)
  operate op v w s r t fits run := sound.operate op v w s r t fits (below.operate op v w s r t run)

theorem Reading.perform_below (below : calls.Below calls') (reading : Reading) : Below (reading.perform calls) (reading.perform calls') := by
  cases reading with
  | get address => exact (Configuration.getWith_below below address).map
  | node selectors => exact (Configuration.nodeWith_below below selectors).map
  | value id => exact (below.resolve id).map
  | resolve => exact (Configuration.resolveWith_below below).map
  | call address => exact (Configuration.callWith_below below address).map
  | describe depth => exact (Configuration.describeWith_below below depth).map

/-- What readings lead to, they lead to as well with work that the given work is below. -/
theorem Readings.of_below (below : calls.Below calls') (readings : Readings calls s t) : Readings calls' s t := by
  induction readings with
  | start s => exact .start s
  | next reading run _ ih => exact .next reading (reading.perform_below below _ _ _ run) ih

end ConfTree
