import ConfTree.Proofs.Discipline.Work

/-!
Edits under a discipline. Trees are built from content node by node, and a node takes the place of another one by a
few writes; a discipline that bears each of these (`Discipline.Edited`), new entries being restricted to some heads,
is kept by building and replacing as a whole, and so by overrides.
-/
namespace ConfTree

open StoreM

/-- The value that overrides a name is that of an override, of which only the use is counted. -/
theorem takeOverride_inv {s t : Store} {name : Text} {r : Except Thrown (Option Value)} (run : Runs (takeOverride name) s r t) :
    ∃ used, t = s.inSession (fun session => { session with overrides := used }) ∧
      (∀ o ∈ used, ∃ o' ∈ s.session.overrides, o.target = o'.target ∧ o.value = o'.value) ∧
      ∀ v, r = .ok (some v) → ∃ o ∈ s.session.overrides, o.target = name ∧ o.value = v := by
  have rest := (Runs.bind_iff getSession_run).mp run
  dsimp only at rest
  split at rest
  · obtain ⟨rfl,rfl⟩ := Runs.pure_iff.mp rest
    exact ⟨t.session.overrides,rfl,fun o listed => ⟨o,listed,rfl,rfl⟩,nofun⟩
  · next o found =>
    have last := (Runs.bind_iff modifySession_run).mp rest
    obtain ⟨rfl,rfl⟩ := Runs.pure_iff.mp last
    refine ⟨_,rfl,fun o' member => ?_,fun v same => ⟨o,List.mem_of_find?_eq_some found,?_,?_⟩⟩
    · obtain ⟨o'',listed,rfl⟩ := List.mem_map.mp member
      exact ⟨o'',listed,by split <;> exact ⟨rfl,rfl⟩⟩
    · simpa using List.find?_some found
    · exact Option.some.inj (Except.ok.inj same)

/-- A body without the nodes that stand in its places, and without what overrides it. -/
def Body.outline : Body → Body
  | .scalar raw _ => .scalar raw none
  | .sequence _ declared isSettled => .sequence [] declared isSettled
  | .mapping entries isSettled => .mapping entries isSettled
  | .entry head _ declared renamed modification evaluated => .entry head 0 declared renamed modification evaluated

theorem Body.kind_outline (b : Body) : b.outline.kind = b.kind := by cases b <;> rfl

/-- All entries in the content have such heads. -/
inductive Content.Heads (P : EntryHead → Prop) : Content → Prop
  | scalar (literal : Literal) : Heads P (.scalar literal)
  | list {items : List Content} (items_heads : ∀ c ∈ items, Heads P c) : Heads P (.list items)
  | mapping {entries : List (EntryHead × Content)} (heads : ∀ p ∈ entries, P p.1)
      (values : ∀ p ∈ entries, Heads P p.2) : Heads P (.mapping entries)

theorem Content.heads_any : (c : Content) → c.Heads fun _ => True
  | .scalar literal => .scalar literal
  | .list items => .list fun c _ => heads_any c
  | .mapping entries => .mapping (fun _ _ => trivial) fun p _ => heads_any p.2
termination_by c => sizeOf c
decreasing_by
  · have := List.sizeOf_lt_of_mem ‹_›
    simp +arith; omega
  · have := List.sizeOf_lt_of_mem ‹_›
    rcases p with ⟨head,c⟩
    simp at *; omega

/-- A discipline that bears the writes by which trees are built, from entries with such heads, and replaced. -/
structure Discipline.Edited (D : Discipline) (P : EntryHead → Prop) : Prop where
  marked : ∀ id f, (∀ n : Node, (f n).body = n.body) → (∀ n : Node, (f n).resolution = n.resolution) →
    (∀ n : Node, n.transforms <+: (f n).transforms) → D.Keeps (modifyNode id f)
  swapped : ∀ (s : Store) (id : NodeId) (b : Body), b.outline = (s.node id).body.outline → D.KeepsAt s (modifyBody id fun _ => b)
  rooted : ∀ root, D.Keeps (modifySession fun session => { session with root })
  grown : ∀ body : Body, body.kind ≠ .entry → D.Keeps (newNode (.fresh body))
  entered : ∀ head value, P head → D.Keeps (newNode (.fresh (.entry head value value none .pending none)))

namespace Discipline.Edited

variable {D : Discipline} {P : EntryHead → Prop} (edited : D.Edited P)
include edited

/-- Writing neither the body nor what belongs to the value. -/
theorem touched {id : NodeId} {f : Node → Node}
    (same : ∀ n : Node, (f n).body = n.body ∧ (f n).resolution = n.resolution ∧ (f n).transforms = n.transforms) :
    D.Keeps (modifyNode id f) :=
  edited.marked id f (fun n => (same n).1) (fun n => (same n).2.1) fun n => (same n).2.2 ▸ List.prefix_rfl

theorem adopt (parent : NodeId) (children : List NodeId) : D.Keeps (adopt parent children) :=
  Keeps.forM children fun _ _ => edited.touched fun _ => ⟨rfl,rfl,rfl⟩

theorem newParent {body : Body} (grows : D.Keeps (newNode (.fresh body))) (children : List NodeId) :
    D.Keeps (newParent body children) := grows.bind fun id => (edited.adopt id children).bind fun _ => .pure _

omit edited

mutual

theorem plant (edited : D.Edited P) (c : Content) (heads : c.Heads P) : D.Keeps (plant c) := by
  cases heads with
  | scalar literal => exact edited.grown _ (by exact nofun)
  | list items => exact (plantAll edited _ items).bind fun ids => edited.newParent (edited.grown _ (by exact nofun)) _
  | mapping heads values => exact (plantEntries edited _ heads values).bind fun ids => edited.newParent (edited.grown _ (by exact nofun)) _

theorem plantAll (edited : D.Edited P) (cs : List Content) (heads : ∀ c ∈ cs, c.Heads P) : D.Keeps (plantAll cs) := by
  cases cs with
  | nil => exact .pure _
  | cons c rest =>
    obtain ⟨here,there⟩ := List.forall_mem_cons.mp heads
    exact (plant edited c here).bind fun _ => (plantAll edited rest there).bind fun _ => .pure _

theorem plantEntries (edited : D.Edited P) (cs : List (EntryHead × Content)) (heads : ∀ p ∈ cs, P p.1) (values : ∀ p ∈ cs, p.2.Heads P) :
    D.Keeps (plantEntries cs) := by
  cases cs with
  | nil => exact .pure _
  | cons p rest =>
    obtain ⟨head,c⟩ := p
    obtain ⟨here,there⟩ := List.forall_mem_cons.mp heads
    obtain ⟨inside,others⟩ := List.forall_mem_cons.mp values
    exact (plant edited c inside).bind fun value => (edited.newParent (edited.entered head value here) _).bind fun _ =>
      (plantEntries edited rest there others).bind fun _ => .pure _

end

include edited

theorem build {raw : Value} {path : Text} (heads : ∀ c, Content.ofValue path raw = .ok c → c.Heads P) : D.Keeps (build raw path) := by
  unfold StoreM.build
  cases read : Content.ofValue path raw with
  | error cause => exact ((Refuses.throwCause cause).first _).still.keeps
  | ok c => exact edited.plant c (heads c read)

theorem replaceChild (container child replacement : NodeId) : D.Keeps (replaceChild container child replacement) := by
  intro s
  refine KeepsAt.after getNode_run ?_
  cases body : (s.node container).body with
  | scalar => exact Keeps.bind (Quiet.nameOf _).keeps (fun _ => (Quiet.throwCause _).keeps) s
  | mapping => exact Keeps.bind (Quiet.nameOf _).keeps (fun _ => (Quiet.throwCause _).keeps) s
  | sequence items declared isSettled =>
    dsimp only
    split
    · exact Keeps.bind (Quiet.nameOf _).keeps (fun _ => (Quiet.nameOf _).keeps.bind fun _ => (Quiet.throwCause _).keeps) s
    · exact (edited.swapped _ _ _ (by rw [body]; rfl)).bind fun _ => edited.adopt _ _
  | entry head slot declared renamed modification evaluated =>
    have swap : D.KeepsAt s (do
        modifyBody container fun _ => .entry head replacement declared renamed modification evaluated
        StoreM.adopt container [replacement]) := (edited.swapped _ _ _ (by rw [body]; rfl)).bind fun _ => edited.adopt _ _
    dsimp only
    split
    · exact Keeps.bind (Quiet.nameOf _).keeps (fun _ => ((Refuses.throwCause _).first _).still.keeps) s
    · exact swap

theorem replaceTop (top replacement : NodeId) : D.Keeps (replaceTop top replacement) := by
  refine Keeps.bind (edited.touched fun _ => ⟨rfl,rfl,rfl⟩) fun _ => (Quiet.getNode _).keeps.bind fun n => ?_
  split
  · exact Keeps.bind (edited.touched fun _ => ⟨rfl,rfl,rfl⟩) fun _ =>
      Keeps.bind (edited.touched fun _ => ⟨rfl,rfl,rfl⟩) fun _ => edited.rooted _
  · exact .pure _

theorem handOn (node replacement : NodeId) : D.Keeps (handOn node replacement) :=
  (Quiet.getNode _).keeps.bind fun _ =>
    Keeps.bind (edited.marked _ _ (fun _ => rfl) (fun _ => rfl) fun _ => List.prefix_append _ _) fun _ =>
      edited.touched fun _ => ⟨rfl,rfl,rfl⟩

theorem replaceWith (id replacement : NodeId) : D.Keeps (replaceWith id replacement) := by
  have rest (node : NodeId) : D.Keeps (do
      StoreM.handOn node replacement
      discard (nameOf replacement)
      return replacement) := (edited.handOn _ _).bind fun _ => (Quiet.nameOf _).keeps.map.bind fun _ => .pure _
  refine (Quiet.current id).keeps.bind fun node => ?_
  dsimp only
  split
  · exact .pure _
  · refine (Quiet.getNode node).keeps.bind fun n => ?_
    split
    · exact (Quiet.current _).keeps.bind fun container => (edited.replaceChild _ _ _).bind fun _ => rest node
    · exact (edited.replaceTop _ _).bind fun _ => rest node

theorem override (node : NodeId) {name : Text} {v : Value} (heads : ∀ c, Content.ofValue name v = .ok c → c.Heads P) :
    D.Keeps (override node name v) := by
  have mark (id : NodeId) : D.Keeps (markOverridden id) :=
    edited.touched fun _ => ⟨rfl,rfl,rfl⟩
  intro s
  refine KeepsAt.after getNode_run ?_
  split
  · next body _ => exact (edited.swapped _ _ _ (by rw [body]; rfl)).bind fun _ => (mark _).bind fun _ => .pure _
  · exact ((edited.build heads).bind fun _ => (mark _).bind fun _ => edited.replaceWith _ _) s

/-! ## Any content -/

omit edited

section Any

variable (any : D.Edited fun _ => True)
include any

theorem copy (id : NodeId) : D.Keeps (copy id) := Quiet.get.keeps.bind fun s => (any.plant _ (Content.heads_any _)).bind fun value => by
  split
  · exact any.newParent (any.entered _ _ trivial) _
  · exact .pure _

theorem instantiate (listed : ∀ name template, D.Keeps (modifySession fun session =>
    { session with templates := session.templates ++ [(name,template)] })) (name : Text) : D.Keeps (instantiate name) := by
  have loaded : D.Keeps (loadTemplate name) := Quiet.getSession.keeps.bind fun session => by
    split
    · exact (Quiet.throwCause _).keeps
    · split
      · exact (Quiet.throwFailure _).keeps
      · exact (any.build fun c _ => c.heads_any).bind fun _ => (listed _ _).bind fun _ => .pure _
  have found : D.Keeps (template name) := (Quiet.orThrow _).keeps.map.bind fun _ => Quiet.getSession.keeps.bind fun session => by
    split
    · exact .pure _
    · exact loaded
  exact found.bind fun _ => (any.copy _).bind fun _ =>
    Keeps.bind (any.touched fun _ => ⟨rfl,rfl,rfl⟩) fun _ => .pure _

theorem setVariable (unit : Text) (instance_ : NodeId) (path : Text) (raw : Value) :
    D.Keeps (Modify.setVariable unit instance_ path raw) := Quiet.get.keeps.bind fun s => by
  split
  · exact (Quiet.throwCause _).keeps
  · exact (any.build fun c _ => c.heads_any).bind fun _ => (any.replaceWith _ _).map

theorem promote (node : NodeId) : D.Keeps (Modify.promote node) :=
  Quiet.get.keeps.bind fun s => (Regular.entryAbove?_quiet node).keeps.bind fun found => by
    dsimp only
    split
    · exact (Quiet.throwCause _).keeps
    · split
      · exact (Quiet.throwCause _).keeps.bind fun _ => any.replaceWith _ _
      · exact any.replaceWith _ _

theorem fuse (host : Host) {calls : Calls} (sound : D.Sound calls) (node : NodeId) : D.Keeps (Modify.fuse host calls node) := by
  have typed (result : NodeId) (typeSources : List Text) : D.Keeps (do
      if !typeSources.isEmpty then
        let locals ← Expression.locals result
        let types ← typeSources.mapM fun source => Expression.types host calls source locals
        modifyNode result fun n => { n with types := some types.flatten }
      return result) := by
    dsimp only
    split
    · exact (Judgement.locals_holds sound.judged _ : D.Keeps _).bind fun locals =>
        (Keeps.mapM typeSources fun source _ => Judgement.declared_holds sound.judged host _ source locals).bind fun _ =>
          Keeps.bind (any.touched fun _ => ⟨rfl,rfl,rfl⟩) fun _ => .pure _
    · exact .pure _
  have fused (mapping : NodeId) : D.Keeps (do
      let typeSources ← Modify.sources calls mapping "types"
      let modifierSources ← Modify.sources calls mapping "modifiers"
      let start ← StoreM.replaceWith mapping (← calls.child mapping (.key "value"))
      requireSession start
      let result ← modifierSources.foldlM (fun node source => do
        let modifiers ← Expression.modifiers host calls source (← Expression.locals node)
        Modify.applyAll calls node modifiers) start
      if !typeSources.isEmpty then
        let locals ← Expression.locals result
        let types ← typeSources.mapM fun source => Expression.types host calls source locals
        modifyNode result fun n => { n with types := some types.flatten }
      return result) := by
    refine (Regular.sources_keeps sound mapping "types").bind fun typeSources =>
      (Regular.sources_keeps sound mapping "modifiers").bind fun modifierSources => ?_
    refine (sound.child mapping (.key "value")).bind fun value => (any.replaceWith _ _).bind fun start =>
      (Still.requireSession start).keeps.bind fun _ => ?_
    refine Keeps.bind (Keeps.foldlM modifierSources (fun node source _ => ?_) start) fun result => typed result typeSources
    exact (Judgement.locals_holds sound.judged _ : D.Keeps _).bind fun locals => (Judgement.declared_holds sound.judged host _ source locals).bind fun modifiers =>
      Regular.applyAll_keeps sound node modifiers
  refine (sound.settled node).bind fun mapping => Quiet.get.keeps.bind fun s => ?_
  dsimp only
  split
  · exact ((Refuses.throwCause _).first _).still.keeps
  · split
    · exact ((Refuses.throwCause _).first _).still.keeps
    · exact fused mapping

end Any

end Discipline.Edited

/-! ## Work that is noted at a node -/

section Noted

variable {D : Discipline} (session : ∀ f, D.Keeps (modifySession f))
include session

/-- Work on a node notes how far it came and changes nothing else by itself. -/
theorem Discipline.guarded_keeps {α : Type} {id : NodeId} {wrap : Text → Cause} {noted : FaultId → Node → Node} {work : StoreM α}
    (notes : ∀ fault, D.Keeps (modifyNode id (noted fault))) (keeps : D.Keeps work) :
    D.Keeps (Resolve.guarded id wrap (fun fault => modifyNode id (noted fault)) work) := by
  refine (session _).bind fun _ => ?_
  refine Keeps.bind (Keeps.tryCatch (Keeps.map ?_) fun _ => .pure _) fun result => (session _).bind fun _ => ?_
  · exact keeps.tryCatch fun thrown => (Quiet.asFault _ _).keeps.bind fun fault => (Quiet.locate _ _).keeps.bind fun _ =>
      (notes fault).bind fun _ => .throw _
  · cases result with
    | ok v => exact .pure v
    | error thrown => exact .throw thrown

theorem Discipline.computing_keeps {id : NodeId} (notes : ∀ state, D.Keeps (modifyNode id (Resolve.computed state)))
    {value : StoreM Value} (keeps : D.Keeps value) : D.Keeps (Resolve.computing id value) :=
  (Still.requireSession id).keeps.bind fun _ => (notes .active).bind fun _ =>
    guarded_keeps session (fun fault => notes (.failed fault)) (keeps.bind fun v => (notes (.done v)).bind fun _ => .pure _)

theorem Discipline.modifying_keeps {id : NodeId} (notes : ∀ state, D.Keeps (modifyNode id (Resolve.modified state)))
    {declare : StoreM Bool} (keeps : D.Keeps declare) : D.Keeps (Resolve.modifying id declare) := by
  refine (Still.requireSession id).keeps.bind fun _ => (notes .active).bind fun _ => ?_
  refine guarded_keeps session (fun fault => notes (.failed fault)) (keeps.bind fun named => (notes (.done ())).bind fun _ => ?_)
  split
  · exact (Quiet.nameOf id).keeps.map
  · exact .pure _

end Noted

/-! ## Every write -/

/-- A discipline that all stores fit and that bears each write by which the work on a tree changes one. -/
structure Discipline.Bearing (D : Discipline) : Prop extends D.Edited fun _ => True where
  fits : ∀ s, D.Fits s
  mapping : ∀ s t id, D.Reaches s t → s.kind id = .mapping → t.kind id = .mapping
  noted : ∀ (s : Store) (id : NodeId) (f : Node → Node), (s.node id).Akin (f (s.node id)) → D.Reaches s (s.update id f)
  counted : ∀ (s : Store) (overrides : List Override), D.Reaches s (s.inSession fun session => { session with overrides })
  listed : ∀ name template, D.Keeps (modifySession fun session => { session with templates := session.templates ++ [(name,template)] })
  computing : ∀ s id value, (s.node id).resolution = .pending → D.Keeps value → D.KeepsAt s (Resolve.computing id value)
  modifying : ∀ s id declare, (s.node id).body.modification? = some .pending → D.Keeps declare →
    D.KeepsAt s (Resolve.modifying id declare)

namespace Discipline.Bearing

variable {D : Discipline} (bearing : D.Bearing)
include bearing

theorem regular : D.Regular fun _ _ => True where
  stays _ _ _ _ _ := trivial
  mapping := bearing.mapping
  attached _ _ _ _ := trivial
  current _ _ _ _ := trivial
  parent _ _ _ _ _ := trivial
  noted s id f _ akin := ⟨bearing.fits _,bearing.noted s id f akin⟩
  counted s overrides _ := ⟨bearing.fits _,bearing.counted s overrides⟩
  overridden s node _ _ _ := bearing.override node (fun c _ => c.heads_any) s
  built s _ _ _ _ := ((bearing.build fun c _ => c.heads_any).bind fun _ => bearing.replaceWith _ _) s
  copied s _ id _ := ((bearing.copy id).bind fun _ => bearing.replaceWith _ _) s
  laid s _ _ _ _ := (Quiet.get.keeps.bind fun _ => (bearing.plant _ (Content.heads_any _)).bind fun _ => bearing.replaceWith _ _) s
  loaded s _ unit vars _ := ((bearing.instantiate bearing.listed unit).bind fun instance_ =>
    (Keeps.forM vars fun p _ => bearing.setVariable unit instance_ p.1 p.2).bind fun _ => (bearing.replaceWith _ _).bind fun _ => .pure _) s
  computing := bearing.computing
  modifying := bearing.modifying

/-- All work on a tree keeps such a discipline, to whatever depth. -/
theorem ofDepth (host : Host) (depth : Nat) : D.Sound (Calls.ofDepth host depth) := by
  induction depth with
  | zero => exact .exhausted
  | succ depth ih =>
    have regular := bearing.regular
    refine ⟨regular.resolve_step host ih,regular.settle_step ih,settled_keeps ih,child_keeps ih,regular.declaration_step host ih,
      fun m id s => regular.apply_step host ih m trivial (fun _ => bearing.promote id s) fun _ => bearing.fuse host ih id s,object_keeps ih host,
      operate_keeps⟩

end Discipline.Bearing
end ConfTree
