import ConfTree.Configuration
import ConfTree.Proofs.Discipline.Evaluation

/-!
The work on a tree under a discipline. Of all that the work does, only a few edits write nodes or the session;
a discipline that bears these (`Discipline.Regular`) is kept by settling and resolving, by declarations and by
each modifier that moves no node, if it is kept by the work that they refer to.
-/
namespace ConfTree

open StoreM

namespace Resolve

variable (host : Host) (calls : Calls)

/-- Settles a node and computes its value, or that of what took its place meanwhile. -/
def value (id : NodeId) : StoreM Value := do
  calls.settle id
  let now ← current id
  if now = id then do finish host calls id (← computeValue host calls id) else calls.resolve now

/-- The resolution of a node set to what it came to. -/
def computed (state : Progress Value) (n : Node) : Node := { n with resolution := state }

/-- Computes the value of a node for the first time. -/
def computing (id : NodeId) (value : StoreM Value) : StoreM Value := do
  requireSession id
  modifyNode id (computed .active)
  guarded id .resolution (fun fault => modifyNode id (computed (.failed fault))) do
    let v ← value
    modifyNode id (computed (.done v))
    return v

theorem work_eq (id : NodeId) : work host calls id = (do
    let v ← value host calls id
    modifyNode id fun n => { n with resolution := .done v }
    return v) := by
  simp only [work,value,bind_assoc]
  congr
  funext _
  congr
  funext now
  split <;> simp only [bind_assoc]

theorem resolve_eq (id : NodeId) : resolve host calls id = (do
    let now ← current id
    if now ≠ id then calls.resolve now
    else match (← getNode id).resolution with
      | .done v => return v
      | .failed fault => throw (.fault fault)
      | .active => reportCycle id
      | .pending => computing id (value host calls id)) := by
  simp only [resolve,computing,work_eq]
  rfl

/-- Applies the override of an entry's value and its modifiers, and attaches its types; tells whether the entry
declares modifiers. -/
def declare (id slot : NodeId) : StoreM Bool := do
  let node ← applyOverride slot
  let declared ← calls.declaration id
  let node ← Modify.applyAll calls node declared.modifiers
  if let some types := declared.types then
    modifyNode node fun n => { n with types := some types }
  return !declared.modifiers.isEmpty

/-- The modification of a node set to what it came to. -/
def modified (state : Progress Unit) (n : Node) : Node :=
  { n with body := match n.body with
      | .entry head slot declared renamed _ evaluated => .entry head slot declared renamed state evaluated
      | body => body }

/-- Modifies the value of an entry for the first time. -/
def modifying (id : NodeId) (declare : StoreM Bool) : StoreM Unit := do
  requireSession id
  modifyNode id (modified .active)
  guarded id (fun message => .construction (.reported message) none) (fun fault => modifyNode id (modified (.failed fault))) do
    let named ← declare
    modifyNode id (modified (.done ()))
    if named then discard (nameOf id)

theorem applyDeclaration_eq (id slot : NodeId) : applyDeclaration calls id slot = (do
    let named ← declare calls id slot
    setModification id (.done ())
    if named then discard (nameOf id)) := by
  simp only [applyDeclaration,declare,bind_assoc]
  congr
  funext _
  congr
  funext declared
  congr
  funext node
  cases declared.types <;> rfl

theorem modifyEntry_pending (id slot : NodeId) : modifyEntry calls id slot .pending = modifying id (declare calls id slot) := by
  rw [modifyEntry,applyDeclaration_eq]
  rfl

end Resolve

/-! ## Values and settling under a judgement -/

namespace Judgement

variable {J : Judgement}

theorem displayAll_quiet (vs : List Value) : Quiet (Modify.displayAll vs) :=
  (Holds.mapM vs fun v _ => Quiet.display v).bind fun _ => .pure _

theorem checkAmong_quiet (values : List Value) (v : Value) : Quiet (Modify.checkAmong values v) := by
  unfold Modify.checkAmong
  split
  · exact (Quiet.display v).bind fun _ => (displayAll_quiet values).bind fun _ => Quiet.throwCause _
  · exact .pure _

variable (host : Host) {calls : Calls} (sound : J.Sound calls)
include sound

omit sound in
theorem reportCycle_holds {α : Type} (attached : ∀ id, J.Holds (requireSession id)) (id : NodeId) :
    J.Holds (Resolve.reportCycle id : StoreM α) :=
  (attached id).bind fun _ => Quiet.judged <| Quiet.getSession.bind fun _ =>
    (Holds.mapM _ fun id _ => Quiet.nameOf id).bind fun _ => (Quiet.newFault _).bind fun fault =>
      (Quiet.locate fault id).bind fun _ => .throw _

theorem settleEntries_holds (mapping : NodeId) (entries : List NodeId) : J.Holds (Resolve.settleEntries calls mapping entries) := by
  induction entries with
  | nil => exact .pure _
  | cons entry rest ih =>
    refine (Quiet.getNode mapping).judged.bind fun n => ?_
    split
    · exact .pure _
    · exact (sound.settle entry).bind fun _ => ih

theorem scalarValue_holds (id : NodeId) (raw : Literal) (override : Option Literal) :
    J.Holds (Resolve.scalarValue host calls id raw override) := by
  refine (Quiet.getNode id).judged.bind fun n => Holds.checked (Quiet.throwCause _).judged ?_
  cases override.getD raw with
  | text t =>
    refine (sound.attached id).bind fun _ => Quiet.getSession.judged.bind fun session => ?_
    split
    · exact .pure _
    · refine (locals_holds sound id).bind fun locals => (evaluate_holds sound host _ locals).bind fun v => ?_
      split
      · exact sound.resolve _
      · exact .pure _
  | _ => exact .pure _

theorem pairsOf_holds (emitted : List (Text × Text)) (pairs : Pairs) (entries : List NodeId) :
    J.Holds (Resolve.pairsOf calls emitted pairs entries) := by
  induction entries generalizing emitted pairs with
  | nil => exact .pure _
  | cons entry rest ih =>
    refine (entryValue_holds sound.settle entry).bind fun value => Quiet.get.judged.bind fun s => ?_
    split
    · exact ih _ _
    · dsimp only
      split
      · exact (Quiet.throwCause _).judged.bind fun _ => (sound.resolve value).bind fun v => ih _ _
      · exact (sound.resolve value).bind fun v => ih _ _

theorem computeValue_holds (id : NodeId) : J.Holds (Resolve.computeValue host calls id) := by
  refine (Quiet.getNode id).judged.bind fun n => ?_
  cases n.body with
  | scalar raw override => exact scalarValue_holds host sound id raw override
  | sequence items =>
    exact Quiet.get.judged.bind fun _ => (Holds.mapM _ fun item _ => sound.resolve item).bind fun _ => (Quiet.compute _).judged
  | mapping entries => exact (pairsOf_holds sound [] [] entries).bind fun _ => (Quiet.compute _).judged
  | entry =>
    exact Quiet.get.judged.bind fun _ => (entryValue_holds sound.settle id).bind fun value => (sound.resolve value).bind fun _ =>
      (Quiet.compute _).judged

theorem finish_holds (id : NodeId) (computed : Value) : J.Holds (Resolve.finish host calls id computed) := by
  have passed (v : Value) (transform : Transform) : J.Holds (Resolve.transform host calls v transform) := by
    cases transform with
    | call function => exact sound.invoke _ _ _
    | among values => exact (checkAmong_quiet values v).judged.bind fun _ => .pure _
    | host name => exact (Quiet.compute _).judged
  refine (Quiet.getNode id).judged.bind fun n => (Holds.foldlM n.transforms (fun v transform _ => passed v transform) computed).bind fun v => ?_
  refine (Quiet.getNode id).judged.bind fun n => ?_
  dsimp only
  split
  · split
    · exact (Quiet.throwCause _).judged.bind fun _ => .pure _
    · exact .pure _
  · exact (show J.Holds (Pure.pure PUnit.unit) from .pure _).bind fun _ => .pure _

theorem value_holds (id : NodeId) : J.Holds (Resolve.value host calls id) := by
  refine (sound.settle id).bind fun _ => (Quiet.current id).judged.bind fun now => ?_
  split
  · exact (computeValue_holds host sound id).bind fun v => finish_holds host sound id v
  · exact sound.resolve now

end Judgement

/-! ## Guarded work -/

namespace Store

/-- The store when work on a node begins. -/
def entered (s : Store) (id : NodeId) : Store := s.inSession fun session => { session with busy := session.busy ++ [id] }

/-- The store when work on a node is over. -/
def left (s : Store) (id : NodeId) : Store :=
  s.inSession fun session => { session with busy := Resolve.eraseLast session.busy id }

@[simp] theorem node_entered {s : Store} {id other : NodeId} : (s.entered id).node other = s.node other := rfl

@[simp] theorem node_left {s : Store} {id other : NodeId} : (s.left id).node other = s.node other := rfl

end Store

/-- The stores differ in one node only, and there as the relation says. -/
structure Store.Changed (C : Node → Node → Prop) (id : NodeId) (s t : Store) : Prop where
  size : t.nodes.size = s.nodes.size
  others : ∀ other : Nat, other ≠ id → t.node other = s.node other
  here : C (s.node id) (t.node id)
  session : t.session = s.session

namespace Store.Changed

variable {C : Node → Node → Prop} {id : NodeId} {s t u : Store}

theorem of_alike (refl : ∀ n, C n n) (same : s.Alike t) : Changed C id s t where
  size := congrArg Array.size same.nodes
  others other _ := same.node other
  here := by rw [same.node]; exact refl _
  session := same.session

theorem update (refl : ∀ n, C n n) {f : Node → Node} (changes : ∀ n, C n (f n)) : Changed C id s (s.update id f) where
  size := size_update
  others _ apart := node_update_ne apart
  here := by
    rw [node_update]
    split
    · exact changes _
    · exact refl _
  session := rfl

theorem trans (compose : ∀ n n' n'', C n n' → C n' n'' → C n n'') (first : Changed C id s t) (second : Changed C id t u) :
    Changed C id s u where
  size := second.size.trans first.size
  others other apart := (second.others other apart).trans (first.others other apart)
  here := compose _ _ _ first.here second.here
  session := second.session.trans first.session

end Store.Changed

namespace Resolve

theorem eraseLast_entered (busy : List NodeId) (id : NodeId) : eraseLast (busy ++ [id]) id = busy := by simp [eraseLast]

variable {α : Type} {s t : Store} {id : NodeId} {r : Except Thrown α} {wrap : Text → Cause}
  {noted : FaultId → Node → Node}

/-- The outcome of a failure: it is located at the node and noted, or cannot be located. -/
inductive Fails (id : NodeId) (noted : FaultId → Node → Node) (u : Store) : Thrown → Store → Prop
  | located {v w : Store} (fault : FaultId) (before : u.Alike v) (located : Runs (locate fault id) v (.ok ()) w) :
      Fails id noted u (.fault fault) (w.update id (noted fault))
  | lost {v w : Store} {e : Thrown} (fault : FaultId) (before : u.Alike v) (lost : Runs (locate fault id) v (.error e) w) :
      Fails id noted u e w

theorem Fails.changed {C : Node → Node → Prop} {e : Thrown} (fails : Fails id noted s e t) (refl : ∀ n, C n n)
    (compose : ∀ n n' n'', C n n' → C n' n'' → C n n'') (changes : ∀ fault n, C n (noted fault n)) : Store.Changed C id s t := by
  cases fails with
  | lost fault before lost => exact .of_alike refl (before.trans ((Quiet.locate fault id).alike lost))
  | located fault before located =>
    have quiet := before.trans ((Quiet.locate fault id).alike located)
    exact (Store.Changed.of_alike refl quiet).trans compose (.update refl (changes fault))

theorem handled_inv {e : Thrown} (run : Runs (do
    let fault ← asFault wrap e
    locate fault id
    modifyNode id (noted fault)
    throw (.fault fault) : StoreM α) s r t) : ∃ e', r = .error e' ∧ Fails id noted s e' t := by
  rcases Runs.bind_inv run with ⟨fault,v,named,rest⟩ | ⟨e',lost,rfl⟩
  · have before := (Quiet.asFault wrap e).alike named
    rcases Runs.bind_inv rest with ⟨_,w,located,last⟩ | ⟨e',lost,rfl⟩
    · obtain ⟨rfl,rfl⟩ := Runs.throw_iff.mp ((Runs.bind_iff modifyNode_run).mp last)
      exact ⟨_,rfl,.located fault before located⟩
    · exact ⟨e',rfl,.lost fault before lost⟩
  · cases e with
    | fault fault => cases (Runs.pure_iff.mp lost).1
    | foreign message => cases lost

/-- Guarded work ends well, or fails as its work does. -/
theorem guarded_inv (noted : FaultId → Node → Node) {work : StoreM α}
    (run : Runs (guarded id wrap (fun fault => modifyNode id (noted fault)) work) s r t) :
    (∃ v u, r = .ok v ∧ Runs work (s.entered id) (.ok v) u ∧ t = u.left id) ∨
      ∃ e e' u w, r = .error e' ∧ Runs work (s.entered id) (.error e) u ∧ Fails id noted u e' w ∧ t = w.left id := by
  have entered : Runs (enter id) s (.ok ()) (s.entered id) := rfl
  obtain ⟨u,worked,rfl⟩ := cleaningUp_inv ((Runs.bind_iff entered).mp run)
  rcases Runs.tryCatch_inv worked with ⟨v,rfl,ended⟩ | ⟨e,w,failed,handled⟩
  · exact .inl ⟨v,u,rfl,ended,rfl⟩
  · obtain ⟨e',rfl,fails⟩ := handled_inv handled
    exact .inr ⟨e,e',w,u,rfl,failed,fails,rfl⟩

theorem nameOf_ok {name : Text} (run : Runs (nameOf id) s (.ok name) t) : t = s := by
  have rest := (Runs.bind_iff get_run).mp run
  cases outcome : s.name id with
  | ok v =>
    rw [outcome] at rest
    exact (Runs.pure_iff.mp rest).2
  | error issue =>
    rw [outcome] at rest
    cases issue with
    | endless => cases (Runs.throw_iff.mp rest).1
    | _ => exact absurd rest throwCause_fails

/-- A first computation in the session's tree: the value is computed between two notes at the node. -/
theorem computing_attached {value : StoreM Value} {r : Except Thrown Value} {s' : Store} (attached : Runs (requireSession id) s (.ok ()) s')
    (run : Runs (computing id value) s r t) : ∃ u result, Runs value ((s'.update id (computed .active)).entered id) result u ∧
      ((∃ v, result = .ok v ∧ r = .ok v ∧ t = (u.update id (computed (.done v))).left id) ∨
        ∃ e w, r = .error e ∧ Fails id (fun fault => computed (.failed fault)) u e w ∧ t = w.left id) := by
  have rest := (Runs.bind_iff attached).mp run
  rcases guarded_inv (fun fault => computed (.failed fault)) ((Runs.bind_iff modifyNode_run).mp rest) with
    ⟨v,u,rfl,worked,rfl⟩ | ⟨e,e',u,w,rfl,failed,fails,rfl⟩
  · obtain ⟨v',u',first,last⟩ := Runs.bind_ok worked
    have ended := (Runs.bind_iff modifyNode_run).mp last
    obtain ⟨result,rfl⟩ := Runs.pure_iff.mp ended
    obtain rfl := Except.ok.inj result
    exact ⟨u',_,first,.inl ⟨_,rfl,rfl,rfl⟩⟩
  · rcases Runs.bind_inv failed with ⟨v',u',first,last⟩ | ⟨_,first,_⟩
    · have ended := (Runs.bind_iff modifyNode_run).mp last
      cases (Runs.pure_iff.mp ended).1
    · exact ⟨u,_,first,.inr ⟨e',w,rfl,fails,rfl⟩⟩

/-- A run of a first computation: it is refused, or the value is computed between two notes at the node. -/
theorem computing_inv {value : StoreM Value} {r : Except Thrown Value} (run : Runs (computing id value) s r t) :
    (∃ e, r = .error e) ∧ s.Alike t ∨ ∃ s' u, s.Alike s' ∧ ∃ result,
      Runs value ((s'.update id (computed .active)).entered id) result u ∧
      ((∃ v, result = .ok v ∧ r = .ok v ∧ t = (u.update id (computed (.done v))).left id) ∨
        ∃ e w, r = .error e ∧ Fails id (fun fault => computed (.failed fault)) u e w ∧ t = w.left id) := by
  rcases Runs.bind_inv run with ⟨_,s',attached,_⟩ | ⟨e,refused,rfl⟩
  · obtain ⟨u,result,found⟩ := computing_attached attached run
    exact .inr ⟨s',u,(Still.requireSession id s _ s' trivial attached).2,result,found⟩
  · exact .inl ⟨⟨e,rfl⟩,(Still.requireSession id s _ t trivial refused).2⟩

/-- A run of a first modification: it is refused, or the declaration is applied between two notes at the entry. A
failure is one of the declaration, or comes after it when the entry has no name. -/
theorem modifying_inv {declare : StoreM Bool} {r : Except Thrown Unit} (run : Runs (modifying id declare) s r t) :
    (∃ e, r = .error e) ∧ s.Alike t ∨ ∃ s' u, s.Alike s' ∧ ∃ result,
      Runs declare ((s'.update id (modified .active)).entered id) result u ∧
      (t = (u.update id (modified (.done ()))).left id ∨ ∃ e v w, r = .error e ∧
        (v = u ∨ (u.update id (modified (.done ()))).Alike v ∧ ∃ e', Runs (nameOf id) (u.update id (modified (.done ()))) (.error e') v) ∧
        Fails id (fun fault => modified (.failed fault)) v e w ∧ t = w.left id) := by
  rcases Runs.bind_inv run with ⟨_,s',attached,rest⟩ | ⟨e,refused,rfl⟩
  · refine .inr ⟨s',?_⟩
    have same := (Still.requireSession id s _ s' trivial attached).2
    rcases guarded_inv (fun fault => modified (.failed fault)) ((Runs.bind_iff modifyNode_run).mp rest) with
      ⟨_,u,rfl,worked,rfl⟩ | ⟨e,e',u,w,rfl,failed,fails,rfl⟩
    · obtain ⟨named,u',first,last⟩ := Runs.bind_ok worked
      have ended := (Runs.bind_iff modifyNode_run).mp last
      refine ⟨u',same,_,first,.inl ?_⟩
      cases named with
      | false =>
        obtain ⟨_,rfl⟩ := Runs.pure_iff.mp ended
        rfl
      | true =>
        obtain ⟨named,found,_⟩ := Runs.map_inv ended
        cases named with
        | ok => rw [nameOf_ok found]
        | error => contradiction
    · rcases Runs.bind_inv failed with ⟨named,u',first,last⟩ | ⟨_,first,_⟩
      · have ended := (Runs.bind_iff modifyNode_run).mp last
        cases named with
        | false => cases (Runs.pure_iff.mp ended).1
        | true =>
          obtain ⟨named,found,outcome⟩ := Runs.map_inv ended
          cases named with
          | ok => cases outcome
          | error e =>
            exact ⟨u',same,_,first,.inr ⟨e',u,w,rfl,.inr ⟨(Quiet.nameOf id).alike found,e,found⟩,fails,rfl⟩⟩
      · exact ⟨u,same,_,first,.inr ⟨e',u,w,rfl,.inl rfl,fails,rfl⟩⟩
  · exact .inl ⟨⟨e,rfl⟩,(Still.requireSession id s _ t trivial refused).2⟩

end Resolve

/-! ## Edits and modifiers -/

/-- A body without what may be noted in it at any time. -/
def Body.frame : Body → Body
  | .scalar raw _ => .scalar raw none
  | .sequence items declared _ => .sequence items declared false
  | .mapping entries _ => .mapping entries false
  | .entry head slot declared _ modification _ => .entry head slot declared none modification none

/-- How far the modification of an entry has come. -/
def Body.modification? : Body → Option (Progress Unit)
  | .entry _ _ _ _ modification _ => some modification
  | _ => none

theorem Body.modification_frame (b : Body) : b.frame.modification? = b.modification? := by cases b <;> rfl

theorem Body.kind_frame (b : Body) : b.frame.kind = b.kind := by cases b <;> rfl

namespace Store

theorem old_of_modification {s : Store} {id : Nat} {p : Progress Unit} (entry : (s.node id).body.modification? = some p) :
    id < s.nodes.size := by
  refine Nat.lt_of_not_le fun outside => ?_
  rw [node_of_size_le outside] at entry
  cases entry

theorem old_of_mapping {s : Store} {id : Nat} (kind : s.kind id = .mapping) : id < s.nodes.size := by
  refine Nat.lt_of_not_le fun outside => ?_
  rw [Store.kind,node_of_size_le outside] at kind
  cases kind

theorem old_of_resolution {s : Store} {id : Nat} (begun : (s.node id).resolution ≠ .pending) : id < s.nodes.size := by
  refine Nat.lt_of_not_le fun outside => begun ?_
  rw [node_of_size_le outside]
  rfl

end Store

theorem Resolve.modified_modification {n : Node} {p state : Progress Unit} (entry : n.body.modification? = some p) :
    (modified state n).body.modification? = some state := by
  obtain ⟨body⟩ := n
  cases body with
  | entry => rfl
  | _ => cases entry

theorem Resolve.modified_kind (state : Progress Unit) (n : Node) : (modified state n).kind = n.kind := by
  obtain ⟨body⟩ := n
  cases body <;> rfl

/-- Two nodes that differ only in what may be noted at any time: their links and their progress are the same, and
transforms are only added. -/
structure Node.Akin (n n' : Node) : Prop where
  body : n'.body.frame = n.body.frame
  parent : n'.parent = n.parent
  isBound : n'.isBound = n.isBound
  replacedBy : n'.replacedBy = n.replacedBy
  resolution : n'.resolution = n.resolution
  transforms : n.transforms <+: n'.transforms

namespace Node.Akin

variable {n n' : Node} (akin : n.Akin n')
include akin

theorem modification : n'.body.modification? = n.body.modification? := by
  rw [← Body.modification_frame,akin.body,Body.modification_frame]

theorem kind : n'.kind = n.kind := by rw [Node.kind,Node.kind,← Body.kind_frame,akin.body,Body.kind_frame]

end Node.Akin

/-- A discipline that bears each edit by which the work on a tree writes nodes and the session, when the nodes
edited are known to exist. -/
structure Discipline.Regular (D : Discipline) (Known : Store → NodeId → Prop) : Prop where
  stays : ∀ s t id, D.Reaches s t → Known s id → Known t id
  mapping : ∀ s t id, D.Reaches s t → s.kind id = .mapping → t.kind id = .mapping
  attached : ∀ s t id, Runs (requireSession id) s (.ok ()) t → Known t id
  current : ∀ (s : Store) id, D.Fits s → Known s id → Known s (s.current id)
  parent : ∀ (s : Store) (id p : NodeId), D.Fits s → (s.node id).parent = some p → Known s p
  noted : ∀ (s : Store) (id : NodeId) (f : Node → Node), D.Fits s → (s.node id).Akin (f (s.node id)) →
    D.Fits (s.update id f) ∧ D.Reaches s (s.update id f)
  counted : ∀ (s : Store) (overrides : List Override), D.Fits s →
    D.Fits (s.inSession fun session => { session with overrides }) ∧
      D.Reaches s (s.inSession fun session => { session with overrides })
  overridden : ∀ s node name v, Known s node → D.KeepsAt s (override node name v)
  built : ∀ s node raw path, Known s node → D.KeepsAt s (do replaceWith node (← build raw path))
  copied : ∀ s node id, Known s node → D.KeepsAt s (do replaceWith node (← copy id))
  laid : ∀ s node base, Known s node → s.kind node = .mapping →
    D.KeepsAt s (do replaceWith node (← plant (Modify.overlay (← get) node base)))
  loaded : ∀ s node unit (vars : Pairs), Known s node → D.KeepsAt s (do
    let instance_ ← instantiate unit
    vars.forM fun (path,raw) => Modify.setVariable unit instance_ path raw
    return some (← replaceWith node instance_))
  computing : ∀ s id value, (s.node id).resolution = .pending → D.Keeps value → D.KeepsAt s (Resolve.computing id value)
  modifying : ∀ s id declare, (s.node id).body.modification? = some .pending → D.Keeps declare →
    D.KeepsAt s (Resolve.modifying id declare)

namespace Discipline.Regular

variable {D : Discipline} {Known : Store → NodeId → Prop} (regular : D.Regular Known)
include regular

theorem note {id : NodeId} {f : Node → Node} (akin : ∀ n : Node, n.Akin (f n)) : D.Keeps (modifyNode id f) := by
  intro s r t fits run
  obtain ⟨_,rfl⟩ := Runs.unique modifyNode_run run
  exact regular.noted s id f fits (akin _)

theorem noteBody {id : NodeId} {f : Body → Body} (same : ∀ b : Body, (f b).frame = b.frame) : D.Keeps (modifyBody id f) :=
  regular.note fun n => ⟨same n.body,rfl,rfl,rfl,rfl,List.prefix_rfl⟩

/-- Noting something in a body that was just read. -/
theorem noteBodyAt {s : Store} {id : NodeId} {b : Body} (same : b.frame = (s.node id).body.frame) :
    D.KeepsAt s (modifyBody id fun _ => b) := by
  intro r t fits run
  obtain ⟨_,rfl⟩ := Runs.unique modifyNode_run run
  exact regular.noted s id _ fits ⟨same,rfl,rfl,rfl,rfl,List.prefix_rfl⟩

theorem takeOverride (name : Text) : D.Keeps (takeOverride name) := Quiet.getSession.keeps.bind fun session => by
  split
  · exact .pure _
  · refine Keeps.bind (fun s r t fits run => ?_) fun _ => .pure _
    obtain ⟨_,rfl⟩ := Runs.unique modifySession_run run
    exact regular.counted s _ fits

theorem applyOverride (id : NodeId) : D.Keeps (applyOverride id) := by
  refine (Quiet.current id).keeps.bind fun node s => ((Still.requireSession node).keeps s).followed fun _ t attached _ => ?_
  refine ((Quiet.nameOf node).keeps t).followed fun name t' _ named => ?_
  refine (regular.takeOverride name t').followed fun found u _ taken => ?_
  split
  · exact Keeps.pure _ u
  · exact regular.overridden _ _ _ _
      (regular.stays _ _ _ taken (regular.stays _ _ _ named (regular.attached _ _ _ attached)))

theorem addTransform (node : NodeId) (t : Transform) : D.Keeps (Modify.addTransform node t) :=
  regular.note fun _ => ⟨rfl,rfl,rfl,rfl,rfl,List.prefix_append _ _⟩

omit regular in
theorem entryAbove?_quiet (node : NodeId) : Quiet (Modify.entryAbove? node) := Quiet.get.bind fun _ => .pure _

theorem rename (node : NodeId) (name : Text) : D.Keeps (Modify.rename node name) :=
  (entryAbove?_quiet node).keeps.bind fun found => by
    split
    · exact (Quiet.throwCause _).keeps
    · exact regular.noteBody fun b => by cases b <;> rfl

omit regular in
theorem select_quiet (options : Pairs) (fallback : Option Text) (v : Value) : Quiet (Modify.select options fallback v) := by
  unfold Modify.select
  dsimp only
  split
  · exact Quiet.throwCause _
  · split
    · exact .pure _
    · exact (Quiet.display _).bind fun _ => Quiet.throwCause _

omit regular in
theorem checkNesting_still (node : NodeId) (unit : Text) : Still (Modify.checkNesting node unit) := Quiet.get.still.bind fun s => by
  split
  · exact .unending
  · split
    · exact (Quiet.throwCause _).still
    · exact .pure _

theorem edit {s : Store} (kind : Text) {node : NodeId} (e : HostEdit) (known : Known s node) :
    D.KeepsAt s (Modify.edit kind node e) := by
  have replaced (raw : Value) : D.KeepsAt s (do return some (← replaceWith node (← build raw .empty))) := by
    have keeps := (regular.built s node raw .empty known).bind fun placed => (Keeps.pure (some placed) : D.Keeps _)
    rwa [bind_assoc] at keeps
  have removed (container : NodeId) (raw : Value) (known : Known s container) : D.KeepsAt s (do
      discard (replaceWith container (← build raw .empty))
      return none : StoreM (Option NodeId)) := by
    have keeps := (regular.built s container raw .empty known).bind fun _ => (Keeps.pure none : D.Keeps (α := Option NodeId) _)
    rw [bind_assoc] at keeps
    simpa only [discard,Functor.discard,map_const,Function.comp_apply,map_eq_pure_bind,bind_assoc,pure_bind] using keeps
  unfold Modify.edit
  split
  · exact Keeps.pure _ s
  · exact Keeps.pure _ s
  · exact Keeps.pure _ s
  · exact (Quiet.throwCause _).keeps s
  · exact (regular.addTransform _ _ s).bind fun _ => .pure _
  · exact replaced _
  · refine KeepsAt.after getNode_run ?_
    split
    · exact Keeps.pure _ s
    · refine KeepsAt.after getNode_run ?_
      split
      · exact Keeps.pure _ s
      · next parent => exact fun r t fits => removed _ _ (regular.parent s _ _ fits parent) r t fits
  · exact Keeps.throw _ s

section Calls

variable (host : Host) {calls : Calls} (sound : D.Sound calls)
include sound

theorem choose {s : Store} {node : NodeId} (options : Pairs) (fallback : Option Text) (known : Known s node) :
    D.KeepsAt s (Modify.choose calls node options fallback) := by
  refine (sound.resolve node s).followed fun v t _ resolved => ?_
  refine ((select_quiet _ _ _).keeps t).followed fun option u _ selected => ?_
  have known := regular.stays _ _ _ selected (regular.stays _ _ _ resolved known)
  split
  · exact regular.copied _ _ _ known
  · refine ((Still.requireSession _).keeps u).followed fun _ u' _ attached => ?_
    refine ((Quiet.nameOf _).keeps u').followed fun name u'' _ named => ?_
    exact regular.built _ _ _ _ (regular.stays _ _ _ named (regular.stays _ _ _ attached known))

theorem extend {s : Store} {id : NodeId} (base : Base) (known : Known s id) : D.KeepsAt s (Modify.extend calls id base) := by
  have found (node : NodeId) : D.Keeps (Modify.baseNode calls node base) := by
    cases base with
    | node id => exact .pure _
    | address address =>
      exact (Still.requireSession _).keeps.bind fun _ => Quiet.getSession.keeps.bind fun _ => fromAddress_keeps sound _ _
  have apart (t : Store) (node base : NodeId) (known : Known t node) (mapping : t.kind node = .mapping) : D.KeepsAt t (do
      if base = node then throwCause (.construction .extendsItself none)
      let merged ← plant (Modify.overlay (← get) node base)
      replaceWith node merged) := by
    dsimp only
    split
    · exact ((Refuses.throwCause _).first _).still.keeps t
    · exact regular.laid t node base known mapping
  have onto (t : Store) (node : NodeId) (known : Known t node) (mapping : t.kind node = .mapping) : D.KeepsAt t (do
      let base ← calls.settled (← Modify.baseNode calls node base)
      let kind ← kindOf base
      if kind ≠ .mapping then
        throwCause (.construction (.extendsBase (← nameOf base) kind.name) none)
      if base = node then throwCause (.construction .extendsItself none)
      let merged ← plant (Modify.overlay (← get) node base)
      replaceWith node merged) := by
    refine (found node t).followed fun b u _ reached => (sound.settled b u).followed fun base w _ settled => ?_
    refine KeepsAt.after kindOf_run ?_
    dsimp only
    split
    · exact Keeps.bind (Quiet.nameOf base).keeps (fun _ => ((Refuses.throwCause _).first _).still.keeps) w
    · exact apart w node base (regular.stays _ _ _ settled (regular.stays _ _ _ reached known))
        (regular.mapping _ _ _ settled (regular.mapping _ _ _ reached mapping))
  refine KeepsAt.after current_run (KeepsAt.after kindOf_run ?_)
  dsimp only
  split
  · exact KeepsAt.after kindOf_run (((Refuses.throwCause _).first _).still.keeps s)
  · next mapping => exact fun r t fits => onto s _ (regular.current s id fits known) (Decidable.not_not.mp mapping) r t fits

theorem load {s : Store} {node : NodeId} (group : Option Text) (vars : Pairs) (known : Known s node) :
    D.KeepsAt s (Modify.load calls node group vars) := by
  refine KeepsAt.after kindOf_run ?_
  split
  · exact ((Quiet.nameOf node).keeps.map.bind fun _ => .pure _) s
  · refine (sound.resolve node s).followed fun v t _ resolved => ((Quiet.orThrow _).keeps t).followed fun unit u _ named => ?_
    refine ((checkNesting_still node unit).keeps u).followed fun _ w _ nested => ?_
    refine ((Still.requireSession node).keeps w).followed fun _ w' _ attached => regular.loaded w' node unit vars ?_
    exact regular.stays _ _ _ attached (regular.stays _ _ _ nested (regular.stays _ _ _ named (regular.stays _ _ _ resolved known)))

omit regular in
theorem applyAll_keeps (node : NodeId) (modifiers : List ModifierObject) : D.Keeps (Modify.applyAll calls node modifiers) :=
  Keeps.foldlM modifiers (fun node m _ => (sound.apply m node).bind fun _ => (Quiet.current _).keeps) node

omit regular in
theorem sources_keeps (mapping : NodeId) (key : Text) : D.Keeps (Modify.sources calls mapping key) := by
  refine Quiet.get.keeps.bind fun s => ?_
  split
  · exact .pure _
  · refine (sound.child mapping (.key key)).bind fun id => (sound.resolve id).bind fun v => ?_
    dsimp only
    split
    · exact .pure _
    · exact (Quiet.throwCause _).keeps

/-- A modifier of a node that exists keeps the discipline if, in case it moves nodes, this does. -/
theorem apply_step {s : Store} (m : ModifierObject) {node : NodeId} (known : Known s node)
    (promoted : m.modifier = .promote → D.KeepsAt s (Modify.promote node))
    (fused : m.modifier = .fuse → D.KeepsAt s (Modify.fuse host calls node)) : D.KeepsAt s (Modify.apply host calls m node) := by
  have noted {f : Node → Node} (akin : ∀ n : Node, n.Akin (f n)) : D.KeepsAt s (do
      modifyNode node f
      return none : StoreM (Option NodeId)) := (regular.note akin s).bind fun _ => .pure _
  unfold Modify.apply
  split
  · exact noted fun _ => ⟨rfl,rfl,rfl,rfl,rfl,List.prefix_rfl⟩
  · exact noted fun _ => ⟨rfl,rfl,rfl,rfl,rfl,List.prefix_rfl⟩
  · exact Keeps.pure _ s
  · next promote => exact (promoted promote).map
  · next fuse => exact (fused fuse).map
  · exact (regular.rename _ _ s).bind fun _ => .pure _
  · exact (regular.choose sound _ _ known).map
  · exact (regular.addTransform _ _ s).bind fun _ => .pure _
  · exact (regular.extend sound _ known).map
  · exact regular.load sound _ _ known
  · exact (regular.addTransform _ _ s).bind fun _ => .pure _
  · exact regular.edit _ _ known

/-! ## Settling and resolution -/

theorem declaration_step (id : NodeId) : D.Keeps (Resolve.declaration host calls id) := by
  have noted (merged : Declaration) : D.Keeps (do
      modifyBody id fun
        | .entry head slot declared renamed modification _ => .entry head slot declared renamed modification (some merged)
        | body => body
      return merged) := (regular.noteBody fun b => by cases b <;> rfl).bind fun _ => .pure _
  refine (Quiet.getNode id).keeps.bind fun n => ?_
  dsimp only
  split
  · exact .pure _
  · refine (Still.requireSession id).keeps.bind fun _ => Quiet.get.keeps.bind fun s => (Judgement.locals_holds sound.judged _ : D.Keeps _).bind fun locals => ?_
    refine (Judgement.declarationOf_holds sound.judged host _ locals : D.Keeps _).bind fun own => ?_
    split
    · exact (Keeps.pure _).bind fun merged => noted merged
    · exact (sound.declaration _).bind fun base => (Quiet.compute _).keeps.bind fun merged => noted merged
  · exact .pure _

theorem declare (id slot : NodeId) : D.Keeps (Resolve.declare calls id slot) := by
  refine (regular.applyOverride slot).bind fun node => (sound.declaration id).bind fun declared => ?_
  refine (applyAll_keeps sound node declared.modifiers).bind fun node => ?_
  dsimp only
  split
  · exact Keeps.bind (regular.note fun _ => ⟨rfl,rfl,rfl,rfl,rfl,List.prefix_rfl⟩) fun _ => .pure _
  · exact .pure _

theorem settle_step (id : NodeId) : D.Keeps (Resolve.settle calls id) := by
  intro s
  refine KeepsAt.after getNode_run ?_
  cases body : (s.node id).body with
  | scalar => exact Keeps.pure _ s
  | sequence items declared isSettled =>
    cases isSettled with
    | true => exact Keeps.pure _ s
    | false =>
      exact (regular.noteBodyAt (by rw [body]; rfl)).bind fun _ => Keeps.forM items fun item _ => (regular.applyOverride item).map
  | mapping entries isSettled =>
    cases isSettled with
    | true => exact Keeps.pure _ s
    | false => exact (regular.noteBodyAt (by rw [body]; rfl)).bind fun _ => Judgement.settleEntries_holds sound.judged id entries
  | entry head slot declared renamed modification evaluated =>
    cases modification with
    | done => exact Keeps.pure _ s
    | failed fault => exact Keeps.throw _ s
    | active => exact Judgement.reportCycle_holds sound.judged.attached id s
    | pending =>
      dsimp only
      rw [Resolve.modifyEntry_pending]
      exact regular.modifying s id _ (by rw [body]; rfl) (regular.declare sound id slot)

theorem resolve_step (id : NodeId) : D.Keeps (Resolve.resolve host calls id) := by
  rw [Resolve.resolve_eq]
  intro s
  refine KeepsAt.after current_run ?_
  split
  · exact sound.resolve _ s
  · refine KeepsAt.after getNode_run ?_
    cases resolution : (s.node id).resolution with
    | done v => exact Keeps.pure v s
    | failed fault => exact Keeps.throw _ s
    | active => exact Judgement.reportCycle_holds sound.judged.attached id s
    | pending => exact regular.computing s id _ resolution (Judgement.value_holds host sound.judged id)

end Calls

end Discipline.Regular
end ConfTree
