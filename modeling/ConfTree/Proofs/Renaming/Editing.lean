import ConfTree.Proofs.Renaming.Actions

/-!
# Edits under other identities

Content is read from a value without regard to identities, and building, replacing and overriding go by it: what they do
to a store they do to a renamed one.
-/
namespace ConfTree

open StoreM

variable {f : Renaming} {v : Value} {vs : List Value}

namespace Content

mutual

theorem ofValue_renamed (path : Text) (v : Value) : ofValue path (v.renamed f) = ofValue path v := by
  cases v with
  | list id items =>
    simp only [Value.renamed,Value.renameAll_eq]
    exact congrArg (list <$> ·) (ofItems_renamed path 0 items)
  | mapping id pairs =>
    simp only [Value.renamed,Value.renamePairs_eq]
    exact congrArg (mapping <$> ·) (ofPairs_renamed path [] pairs)
  | object o => simp [ofValue]
  | _ => rfl
termination_by structural v

theorem ofItems_renamed (path : Text) (index : Nat) (vs : List Value) :
    ofItems path index (vs.map (Value.renamed f)) = ofItems path index vs := by
  cases vs with
  | nil => rfl
  | cons v rest => rw [List.map_cons,ofItems,ofItems,ofValue_renamed _ v,ofItems_renamed path (index + 1) rest]
termination_by structural vs

theorem ofPairs_renamed (path : Text) (seen : List (Text × Text)) (pairs : Pairs) :
    ofPairs path seen (pairs.renamed f) = ofPairs path seen pairs := by
  cases pairs with
  | nil => rfl
  | cons p rest =>
    obtain ⟨raw,v⟩ := p
    have later (seen : List (Text × Text)) : ofPairs path seen (Pairs.renamed f rest) = ofPairs path seen rest :=
      ofPairs_renamed path seen rest
    have here (path : Text) := ofValue_renamed path v
    show ofPairs path seen ((raw,v.renamed f) :: Pairs.renamed f rest) = _
    simp only [ofPairs,here,later]
termination_by structural pairs

end

end Content

@[simp] theorem literal?_renamed : (v.renamed f).literal? = v.literal? := by
  cases v <;> rfl

@[simp] theorem build_renamed (path : Text) : build (v.renamed f) path = build v path := by
  rw [build,build,Content.ofValue_renamed]

namespace Content

theorem mapError_bind {α β : Type} {r : Except Cause α} {k : α → Except Cause β} (first : r.mapError (Cause.renamed f) = r)
    (rest : ∀ a, (k a).mapError (Cause.renamed f) = k a) : (r >>= k).mapError (Cause.renamed f) = r >>= k := by
  cases r with
  | ok a => exact rest a
  | error cause => exact congrArg Except.error (Except.error.inj first)

theorem readKey_cause (path raw : Text) : (readKey path raw).mapError (Cause.renamed f) = readKey path raw := by
  rw [readKey]
  cases Key.parse raw <;> rfl

theorem checkName_cause (path : Text) (seen : List (Text × Text)) (raw : Text) (key : Key) :
    (checkName path seen raw key).mapError (Cause.renamed f) = checkName path seen raw key := by
  rw [checkName]
  cases seen.lookup key.name <;> rfl

mutual

/-- What keeps a value from being content does not show identities. -/
theorem ofValue_cause (path : Text) (v : Value) : (ofValue path v).mapError (Cause.renamed f) = ofValue path v := by
  cases v with
  | list id items =>
    have items := ofItems_cause path 0 items
    rw [ofValue,map_eq_pure_bind]
    exact mapError_bind items fun _ => rfl
  | mapping id pairs =>
    have pairs := ofPairs_cause path [] pairs
    rw [ofValue,map_eq_pure_bind]
    exact mapError_bind pairs fun _ => rfl
  | number n =>
    rw [ofValue]
    split <;> rfl
  | _ => rfl
termination_by structural v

theorem ofItems_cause (path : Text) (index : Nat) (vs : List Value) :
    (ofItems path index vs).mapError (Cause.renamed f) = ofItems path index vs := by
  cases vs with
  | nil => rfl
  | cons v rest =>
    have here := ofValue_cause (itemPath path index) v
    have later := ofItems_cause path (index + 1) rest
    rw [ofItems]
    exact mapError_bind here fun _ => mapError_bind later fun _ => rfl
termination_by structural vs

theorem ofPairs_cause (path : Text) (seen : List (Text × Text)) (pairs : Pairs) :
    (ofPairs path seen pairs).mapError (Cause.renamed f) = ofPairs path seen pairs := by
  cases pairs with
  | nil => rfl
  | cons p rest =>
    obtain ⟨raw,v⟩ := p
    have here (path : Text) := ofValue_cause path v
    have later (seen : List (Text × Text)) := ofPairs_cause path seen rest
    rw [ofPairs]
    refine mapError_bind (readKey_cause path raw) fun key => mapError_bind (checkName_cause path seen raw key) fun _ => ?_
    exact mapError_bind (here _) fun _ => mapError_bind (later _) fun _ => rfl
termination_by structural pairs

end

end Content

namespace Moves

/-! ## Building -/

theorem adopt (parent : NodeId) (children : List NodeId) : Unmoved f (adopt parent children) :=
  forM children fun child => modifyNode child fun _ => rfl

theorem newParent {b : Body} (same : b.renamed f = b) (children : List NodeId) : Unmoved f (newParent b children) := by
  have fresh : (Node.fresh b).renamed f = Node.fresh b := by simp [Node.fresh,Node.renamed,same,Progress.renamed]
  exact (newNode fresh).bind fun id => (adopt id children).bind fun _ => pure id

theorem newEntry (head : EntryHead) (value : NodeId) : Unmoved f (newEntry head value) := newParent rfl [value]

theorem newMapping (entries : List NodeId) : Unmoved f (newMapping entries) := newParent rfl entries

mutual

theorem plant (content : Content) : Unmoved f (plant content) := by
  cases content with
  | scalar literal => exact newNode rfl
  | list items => exact (plantAll items).bind fun ids => newParent rfl ids
  | mapping entries => exact (plantEntries entries).bind fun ids => newMapping ids

theorem plantAll (contents : List Content) : Unmoved f (plantAll contents) := by
  cases contents with
  | nil => exact pure []
  | cons content rest => exact (plant content).bind fun id => (plantAll rest).bind fun ids => pure (id :: ids)

theorem plantEntries (contents : List (EntryHead × Content)) : Unmoved f (plantEntries contents) := by
  cases contents with
  | nil => exact pure []
  | cons p rest =>
    obtain ⟨head,content⟩ := p
    exact (plant content).bind fun value => (newEntry head value).bind fun id => (plantEntries rest).bind fun ids => pure (id :: ids)

end

theorem build (raw : Value) (path : Text) : Unmoved f (build raw path) := by
  have read : Unmoved f (StoreM.orThrow (Content.ofValue path raw)) := orThrow (by rw [id_map,Content.ofValue_cause])
  exact read.bind fun content => plant content

theorem copy (node : NodeId) : Unmoved f (copy node) := by
  refine reading fun s m => ?_
  rw [Store.content_renamed,Store.body_renamed]
  refine (plant _).bind fun value => ?_
  cases (s.node node).body with
  | entry head => exact newEntry head value
  | _ => exact pure value

/-! ## Replacing -/

theorem replaceChild (container child replacement : NodeId) : Unmoved f (replaceChild container child replacement) := by
  refine (getNode container).bind fun n => ?_
  simp only [Node.renamed]
  cases n.body with
  | scalar raw override => exact (nameOf container).bind fun name => throwCause (.address _)
  | mapping entries isSettled => exact (nameOf child).bind fun name => throwCause (.construction _ _)
  | sequence items declared isSettled =>
    simp only [Body.renamed]
    cases items.idxOf? child with
    | none => exact (nameOf child).bind fun name => (nameOf container).bind fun other => throwCause (.address _)
    | some index => exact bind (modifyBody container fun _ => rfl) fun _ => adopt container [replacement]
  | entry head slot declared renamed modification evaluated =>
    simp only [Body.renamed]
    refine ite ((nameOf child).bind fun name => stopped (.address _)) ?_
    exact bind (modifyBody container fun _ => rfl) fun _ => adopt container [replacement]

theorem replaceTop (top replacement : NodeId) : Unmoved f (replaceTop top replacement) := by
  refine bind (modifyNode replacement fun _ => rfl) fun _ => (getNode top).bind fun n => ?_
  refine ite ?_ (pure ())
  refine bind (modifyNode top fun _ => rfl) fun _ => bind (modifyNode replacement fun _ => rfl) fun _ => ?_
  exact modifySession fun _ => rfl

theorem handOn (node replacement : NodeId) : Unmoved f (handOn node replacement) := by
  refine (getNode node).bind fun old => bind (modifyNode replacement fun n => ?_) fun _ => modifyNode node fun _ => rfl
  simp [Node.renamed]

theorem replaceWith (node replacement : NodeId) : Unmoved f (replaceWith node replacement) := by
  refine (current node).bind fun here => ite (pure here) ?_
  have rest : Unmoved f (do StoreM.handOn here replacement; discard (StoreM.nameOf replacement); return replacement) :=
    (handOn here replacement).bind fun _ => (nameOf replacement).discarded.bind fun _ => pure replacement
  refine (getNode here).bind fun n => ?_
  simp only [Node.renamed]
  cases n.parent with
  | none => exact (replaceTop here replacement).bind fun _ => rest
  | some parent => exact (current parent).bind fun container => (replaceChild container here replacement).bind fun _ => rest

/-! ## Overrides and units -/

theorem takeOverride (name : Text) : Unmoved f (takeOverride name) := by
  refine getSession.bind fun session => ?_
  simp only [Session.renamed]
  cases session.overrides.find? fun o => o.target == name with
  | none => exact pure none
  | some override => exact bind (modifySession fun _ => rfl) fun _ => pure (some override.value)

theorem markOverridden (node : NodeId) : Unmoved f (markOverridden node) := modifyNode node fun _ => rfl

theorem override (node : NodeId) (name : Text) (v : Value) : Unmoved f (override node name v) := by
  have replaced : Unmoved f (do
      let replacement ← StoreM.build v name
      StoreM.markOverridden replacement
      StoreM.replaceWith node replacement) :=
    (build v name).bind fun replacement => (markOverridden replacement).bind fun _ => replaceWith node replacement
  refine (getNode node).bind fun n => ?_
  simp only [Node.renamed]
  cases n.body with
  | scalar raw override =>
    cases v.literal? with
    | none => exact replaced
    | some literal => exact bind (modifyBody node fun _ => rfl) fun _ => (markOverridden node).bind fun _ => pure node
  | _ => exact replaced

theorem applyOverride (node : NodeId) : Unmoved f (applyOverride node) := by
  refine (current node).bind fun here => (requireSession here).bind fun _ => (nameOf here).bind fun name => ?_
  refine (takeOverride name).bind fun value => ?_
  cases value with
  | none => exact pure here
  | some v => exact override here name v

theorem loadTemplate (name : Text) : Unmoved f (loadTemplate name) := by
  refine getSession.bind fun session => ?_
  simp only [Session.renamed]
  cases session.loader with
  | none => exact throwCause (.construction _ _)
  | some load =>
    simp only [Option.map_some]
    cases load name with
    | error failure => exact throwFailure failure
    | ok raw =>
      show Moves f id (StoreM.build raw name >>= _) (StoreM.build (raw.renamed f) name >>= _)
      rw [build_renamed]
      exact (build raw name).bind fun template => bind (modifySession fun _ => rfl) fun _ => pure template

theorem template (name : Text) : Unmoved f (template name) := by
  have named : Unmoved f (StoreM.orThrow (UnitName.validate name)) := by
    refine orThrow ?_
    rw [UnitName.validate]
    split <;> rfl
  refine named.discarded.bind fun _ => getSession.bind fun session => ?_
  simp only [Session.renamed]
  cases session.templates.lookup name with
  | some template => exact pure template
  | none => exact loadTemplate name

theorem instantiate (name : Text) : Unmoved f (instantiate name) :=
  (template name).bind fun template => (copy template).bind fun node => bind (modifyNode node fun _ => rfl) fun _ => pure node

end Moves
end ConfTree
