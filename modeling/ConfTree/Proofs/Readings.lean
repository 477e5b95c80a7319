import ConfTree.Proofs.Discipline.Work

/-!
Readings of a configuration: what a program asks of one that was made. Whatever all the work on a tree keeps,
each reading keeps, and so does any sequence of readings, those that throw among them (`Readings.keeps`).
-/
namespace ConfTree

open StoreM

variable {calls : Calls} {s t : Store}

/-- What a program can ask of a configuration. -/
inductive Reading where
  /-- the node at an address -/
  | get (address : Text)
  /-- the node that selectors lead to -/
  | node (selectors : List Selector)
  /-- the value of a node that an earlier reading gave -/
  | value (id : NodeId)
  /-- the value of the whole tree -/
  | resolve
  /-- the value at an address -/
  | call (address : Text)
  /-- the outline of the tree, no deeper than a limit -/
  | describe (depth : Nat)

namespace Reading

/-- Reads, whatever comes of it. -/
def perform (calls : Calls) : Reading → StoreM Unit
  | get address => discard (Configuration.getWith calls address)
  | node selectors => discard (Configuration.nodeWith calls selectors)
  | value id => discard (calls.resolve id)
  | resolve => discard (Configuration.resolveWith calls)
  | call address => discard (Configuration.callWith calls address)
  | describe depth => discard (Configuration.describeWith calls depth)

end Reading

/-- Readings, one after another, lead from the first store to the second. -/
inductive Readings (calls : Calls) : Store → Store → Prop
  | start (s : Store) : Readings calls s s
  | next {s t u : Store} (reading : Reading) {r : Except Thrown Unit} (run : Runs (reading.perform calls) s r t)
      (rest : Readings calls t u) : Readings calls s u

/-! ## Under a judgement -/

namespace Judgement

theorem root_quiet : Quiet Configuration.root := Quiet.of_eq fun _ => rfl

theorem unused_quiet : Quiet Configuration.unused := Quiet.of_eq fun _ => rfl

theorem isAddressFault_quiet (thrown : Thrown) : Quiet (Configuration.isAddressFault thrown) := by
  cases thrown with
  | foreign message => exact .pure _
  | fault id =>
    refine Quiet.get.bind fun s => ?_
    split <;> exact .pure _

variable {J : Judgement} (sound : J.Sound calls)
include sound

theorem get_holds (address : Text) : J.Holds (Configuration.getWith calls address) :=
  root_quiet.judged.bind fun _ => fromAddress_holds sound.toOnTree _ address

theorem node_holds (selectors : List Selector) : J.Holds (Configuration.nodeWith calls selectors) :=
  root_quiet.judged.bind fun _ => Holds.foldlM selectors (fun id selector _ => sound.child id selector) _

theorem settleTargets_holds : J.Holds (Configuration.settleTargets calls) := by
  refine unused_quiet.judged.bind fun targets => Holds.forM _ fun target _ => ?_
  refine (get_holds sound target).map.tryCatch fun thrown => (isAddressFault_quiet thrown).judged.bind fun known => ?_
  split
  · exact .pure _
  · exact .throw _

variable (reported : J.Holds (modifySession fun session => { session with isReported := true }))
include reported

theorem reportUnused_holds : J.Holds (Configuration.reportUnused calls) := by
  refine Quiet.getSession.judged.bind fun session => ?_
  split
  · exact .pure _
  · refine (settleTargets_holds sound).bind fun _ => unused_quiet.judged.bind fun targets => Quiet.getSession.judged.bind fun _ => ?_
    dsimp only
    split
    · exact (Quiet.throwCause _).judged.bind fun _ => reported
    · exact reported

theorem resolve_holds : J.Holds (Configuration.resolveWith calls) :=
  root_quiet.judged.bind fun _ => (sound.resolve _).bind fun _ => (reportUnused_holds sound reported).bind fun _ => .pure _

theorem call_holds (address : Text) : J.Holds (Configuration.callWith calls address) := by
  unfold Configuration.callWith
  split
  · exact resolve_holds sound reported
  · exact (get_holds sound address).bind fun id => sound.resolve id

/-! ## Overrides as they are given -/

omit reported in
theorem ofInputs_holds (host : Host) (inputs : List Value) : J.Holds (Overrides.ofInputs host calls inputs) := by
  have text (source : Text) : J.Holds (Overrides.ofText host calls source) := by
    unfold Overrides.ofText
    split
    · exact .pure _
    · refine Quiet.getSession.judged.bind fun _ => (Quiet.check _).judged.bind fun assignments => Holds.mapM assignments fun a _ => ?_
      exact (evaluate_holds sound host _ _).bind fun v => (Quiet.orThrow _).judged.bind fun _ => .pure _
  have input (v : Value) : J.Holds (Overrides.ofInput host calls v) := by
    cases v with
    | text source => exact text source
    | mapping id pairs => exact (Quiet.orThrow _).judged
    | _ => exact (Quiet.throwCause _).judged
  refine (Holds.mapM inputs fun v _ => input v).bind fun given => ?_
  dsimp only
  split
  · exact (Quiet.throwCause _).judged.bind fun _ => .pure _
  · exact .pure _

end Judgement

/-! ## Under a discipline -/

namespace Discipline

variable {D : Discipline} (sound : D.keeping.Sound calls)
include sound

theorem lines_keeps (fuel depth : Nat) (opening : Text) (id : NodeId) :
    D.Keeps (Outline.lines (Outline.settling calls) fuel depth opening id) := by
  induction fuel generalizing depth opening id with
  | zero => exact .unending
  | succ fuel ih =>
    refine (sound.settled id : D.Keeps _).bind fun live => Quiet.get.keeps.bind fun s => ?_
    cases (s.node live).body with
    | mapping entries =>
      exact (Keeps.mapM entries fun entry _ => (Judgement.entryValue_holds sound.settle entry : D.Keeps _).bind fun value =>
        Quiet.get.keeps.bind fun _ => ih _ _ _).bind fun _ => .pure _
    | sequence => exact (Keeps.mapM _ fun item _ => ih _ _ _).bind fun _ => .pure _
    | _ => exact (Keeps.pure _).bind fun _ => .pure _

theorem describe_keeps (depth : Nat) : D.Keeps (Configuration.describeWith calls depth) :=
  Judgement.root_quiet.keeps.bind fun _ => (lines_keeps sound depth 0 .empty _).bind fun _ => .pure _

theorem reading_keeps (reported : D.Keeps (modifySession fun session => { session with isReported := true })) (reading : Reading) :
    D.Keeps (reading.perform calls) := by
  cases reading with
  | get address => exact (Judgement.get_holds sound address).map
  | node selectors => exact (Judgement.node_holds sound selectors).map
  | value id => exact (sound.resolve id).map
  | resolve => exact (Judgement.resolve_holds sound reported).map
  | call address => exact (Judgement.call_holds sound reported address).map
  | describe depth => exact (describe_keeps sound depth).map

end Discipline

/-- What all work keeps, readings keep, and so does noting that unused overrides were looked for. -/
theorem Readings.keeps {D : Discipline} (sound : D.keeping.Sound calls)
    (reported : D.Keeps (modifySession fun session => { session with isReported := true })) (readings : Readings calls s t)
    (fits : D.Fits s) : D.Fits t ∧ D.Reaches s t := by
  induction readings with
  | start s => exact ⟨fits,D.refl s⟩
  | next reading run _ ih =>
    obtain ⟨fits',reaches⟩ := Discipline.reading_keeps sound reported reading _ _ _ fits run
    obtain ⟨fits'',further⟩ := ih fits'
    exact ⟨fits'',D.trans _ _ _ reaches further⟩

end ConfTree
