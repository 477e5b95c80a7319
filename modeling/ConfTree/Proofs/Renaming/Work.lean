import Mathlib.Data.List.Basic
import ConfTree.Proofs.Renaming.Objects
import ConfTree.Tree.Resolve

/-!
# Work under other identities

Modifiers and resolution do in a renamed store what they do in the store. So all work does, to any depth
(`Calls.ofDepth_uniform`), and with it each expression (`Expression.env_moves`).
-/
namespace ConfTree

open StoreM

variable {f : Renaming} {v : Value} {α β : Type}

theorem ModifierObject.inherit_renamed (fresh : Identity) (own base : ModifierObject) :
    (own.renamed f).inherit (f fresh) (base.renamed f) = (own.inherit fresh base).renamed f := by
  obtain ⟨i,own⟩ := own
  obtain ⟨j,base⟩ := base
  cases own with
  | options options fallback =>
    cases base with
    | options others default => simp [inherit,ModifierObject.renamed,Pairs.insertAll_mapValues]
    | _ => rfl
  | load group vars =>
    cases base with
    | load other others =>
      cases group with
      | some group => cases vars <;> rfl
      | none =>
        cases vars with
        | none => rfl
        | some vars => rfl
    | _ => cases group <;> cases vars <;> rfl
  | _ => rfl

namespace Declaration

variable {own : List ModifierObject}

theorem contains_renamed (used : List Identity) (id : Identity) : (used.map f).contains (f id) = used.contains id := by
  simp only [List.contains_eq_mem,List.mem_map_of_injective f.injective]

theorem match?_renamed (used : List Identity) (base : ModifierObject) :
    match? (own.map (ModifierObject.renamed f)) (used.map f) (base.renamed f) = (match? own used base).map (ModifierObject.renamed f) := by
  simp only [match?,List.find?_map,Function.comp_def,ModifierObject.renamed,Modifier.kind_renamed,contains_renamed]

theorem inheritAll_renamed (own : List ModifierObject) {n k m : Nat} (used : List Identity) (base : List ModifierObject) (enough : n + base.length ≤ k)
    (carries : f.Carries n k m) :
    inheritAll (own.map (ModifierObject.renamed f)) m (used.map f) (base.map (ModifierObject.renamed f)) =
      Prod.map (List.map (ModifierObject.renamed f)) (List.map f) (inheritAll own n used base) := by
  induction base generalizing n m used with
  | nil => rfl
  | cons b rest ih =>
    rw [List.length_cons] at enough
    have later : f.Carries (n + 1) k (m + 1) := by
      have tail := carries.later (Nat.le_succ n)
      rwa [Nat.succ_sub (Nat.le_refl n),Nat.sub_self] at tail
    have here : f n = m := carries.first (by omega)
    have rest (used : List Identity) := ih used (by omega) later
    rw [List.map_cons,inheritAll,inheritAll,match?_renamed]
    cases match? own used b with
    | none => simp [rest]
    | some taken =>
      have given : (taken.renamed f).inherit m (b.renamed f) = (taken.inherit n b).renamed f :=
        here ▸ ModifierObject.inherit_renamed n taken b
      have next := rest (taken.id :: used)
      have id : (taken.renamed f).id = f taken.id := rfl
      rw [List.map_cons] at next
      simp [given,next,id]

theorem merge_moves (own base : Declaration) :
    Compute.Moves f (Declaration.renamed f) (fun n => .ok (own.merge n base,n + base.modifiers.length))
      (fun n => .ok ((own.renamed f).merge n (base.renamed f),n + (base.renamed f).modifiers.length)) where
  value {n k merged} run := by
    obtain ⟨rfl,rfl⟩ : own.merge n base = merged ∧ n + base.modifiers.length = k := by simpa using run
    refine ⟨Nat.le_add_right _ _,fun m carries => ?_⟩
    have inherited := inheritAll_renamed own.modifiers [] base.modifiers (Nat.le_refl _) carries
    rw [List.map_nil] at inherited
    simp only [merge,Declaration.renamed,inherited,Prod.map,List.length_map,Nat.add_sub_cancel_left,List.map_append,List.filter_map,
      Function.comp_def,ModifierObject.renamed,contains_renamed]
  failure _ run := by cases run

end Declaration

/-! ## Work that refers to no other -/

namespace Modify

theorem overlay_renamed {s : Store} {m : Nat} (own base : NodeId) : overlay (s.renamed f m) own base = overlay s own base := by
  simp only [overlay,Store.content_renamed,Store.findEntry_renamed]

theorem unitName_renamed (group : Option Text) : unitName group (v.renamed f) = unitName group v := by
  cases v <;> simp [unitName,Value.typeName]

theorem unitName_cause (group : Option Text) : (unitName group v).mapError (Cause.renamed f) = unitName group v := by
  cases v with
  | text name =>
    unfold unitName
    dsimp only
    split <;> rfl
  | _ => rfl

theorem texts?_renamed (vs : List Value) : Settings.texts? (vs.map (Value.renamed f)) = Settings.texts? vs := by
  rw [Settings.texts?,Settings.texts?,List.mapM_map]
  congr 1
  funext v
  cases v <;> rfl

end Modify

namespace Moves

theorem addTransform (node : NodeId) (t : Transform) :
    Moves f id (Modify.addTransform node t) (Modify.addTransform node (t.renamed f)) :=
  modifyNode node fun n => by simp [Node.renamed]

theorem entryAbove? (node : NodeId) : Unmoved f (Modify.entryAbove? node) := by
  refine reading fun s m => ?_
  simp only [Store.parent_renamed,Store.kind_renamed]
  exact pure _

theorem rename (node : NodeId) (name : Text) : Unmoved f (Modify.rename node name) := by
  refine (entryAbove? node).bind fun entry => ?_
  cases entry with
  | none => exact throwCause (.construction _ _)
  | some entry => exact modifyBody entry fun b => by cases b <;> rfl

theorem promote (node : NodeId) : Unmoved f (Modify.promote node) := by
  refine reading fun s m => (entryAbove? node).bind fun entry => ?_
  simp only [Store.parent_renamed,Store.kind_renamed,Store.entries_renamed,Store.keys_renamed,id]
  generalize (entry.bind fun entry => (s.node entry).parent.filter fun p => s.kind p == NodeKind.mapping) = mapping
  cases mapping with
  | none => exact throwCause (.construction _ _)
  | some mapping => exact ite (stopped (.construction _ _)) (replaceWith mapping node)

theorem displayAll (vs : List Value) : Moves f id (Modify.displayAll vs) (Modify.displayAll (vs.map (Value.renamed f))) := by
  have shown : Moves f (List.map id) (vs.mapM StoreM.display) (vs.mapM StoreM.display) := mapM vs fun v => display v
  unfold Modify.displayAll
  rw [List.mapM_map]
  simp only [Function.comp_def,display_renamed]
  exact shown.bind fun texts => const (by simp)

theorem checkAmong (values : List Value) (v : Value) :
    Moves f id (Modify.checkAmong values v) (Modify.checkAmong (values.map (Value.renamed f)) (v.renamed f)) := by
  unfold Modify.checkAmong
  simp only [List.any_map,Function.comp_def,Value.equal_renamed,display_renamed]
  exact ite ((display v).bind fun shown => (displayAll values).bind fun all => throwCause (.choice _ values)) (pure ())

theorem select (options : Pairs) (fallback : Option Text) (v : Value) :
    Moves f (Value.renamed f) (Modify.select options fallback v) (Modify.select (Pairs.renamed f options) fallback (v.renamed f)) := by
  have refused (message : Text) : Moves f (Value.renamed f)
      (StoreM.throwCause (.choice message ((Pairs.keys options).map .text)) : StoreM Value)
      (StoreM.throwCause (.choice message ((Pairs.keys options).map .text)) : StoreM Value) := by
    have same : (Cause.choice message ((Pairs.keys options).map .text)).renamed f = .choice message ((Pairs.keys options).map .text) := by
      simp [Cause.renamed,Function.comp_def]
    have thrown := throwCause (f := f) (g := Value.renamed f) (.choice message ((Pairs.keys options).map .text))
    rwa [same] at thrown
  have selected : (v.renamed f).orElse (fallback.elim .undefined .text) = (v.orElse (fallback.elim .undefined .text)).renamed f := by
    rw [← Value.orElse_renamed]
    cases fallback <;> rfl
  unfold Modify.select
  simp only [Pairs.keys_mapValues,selected,Value.isMissing_renamed,display_renamed]
  generalize v.orElse (fallback.elim .undefined .text) = chosen
  have unknown : Moves f (Value.renamed f)
      (do StoreM.throwCause (.choice (.concat [← StoreM.display chosen," is not one of ",Text.join ", " (Pairs.keys options)])
        ((Pairs.keys options).map .text)) : StoreM Value)
      (do StoreM.throwCause (.choice (.concat [← StoreM.display chosen," is not one of ",Text.join ", " (Pairs.keys options)])
        ((Pairs.keys options).map .text)) : StoreM Value) := (display chosen).bind fun shown => refused _
  refine ite (refused _) ?_
  cases chosen with
  | text key =>
    simp only [Value.renamed,Pairs.get?,Pairs.lookup_mapValues]
    cases List.lookup key options with
    | some content => exact pure content
    | none => exact unknown
  | _ => exact unknown

theorem checkNesting (node : NodeId) (unit : Text) : Unmoved f (Modify.checkNesting node unit) := by
  refine .reading fun s m => ?_
  rw [Store.enclosingUnits_renamed]
  cases s.enclosingUnits node with
  | none => exact .unending
  | some enclosing => exact .ite (.throwCause (.cycle _ _)) (.pure ())

theorem setVariable (unit : Text) (node : NodeId) (path : Text) (raw : Value) :
    Moves f id (Modify.setVariable unit node path raw) (Modify.setVariable unit node path (raw.renamed f)) := by
  refine .reading fun s m => ?_
  rw [Store.declaredNode?_renamed,build_renamed]
  cases s.declaredNode? node path with
  | none => exact .throwCause (.construction _ _)
  | some place => exact (build raw path).bind fun replacement => (replaceWith place replacement).discarded

theorem edit (kind : Text) (node : NodeId) (e : HostEdit) : Unmoved f (Modify.edit kind node e) := by
  cases e with
  | nothing => exact .pure none
  | fail message => exact .throw _
  | transform name => exact (addTransform node (.host name)).bind fun _ => .pure none
  | replace raw => exact (build raw .empty).bind fun replacement => (replaceWith node replacement).bind fun now => .pure _
  | answer v =>
    cases v with
    | undefined => exact .pure none
    | object o =>
      cases o with
      | node node kind => exact .pure (some node)
      | _ => exact .throwCause (.construction _ _)
    | _ => exact .throwCause (.construction _ _)
  | replaceContainer raw =>
    refine (getNode node).bind fun n => ?_
    simp only [Node.renamed]
    cases n.parent with
    | none => exact .pure none
    | some parent =>
      refine (getNode parent).bind fun n => ?_
      simp only [Node.renamed]
      cases n.parent with
      | none => exact .pure none
      | some container =>
        exact (build raw .empty).bind fun replacement => (replaceWith container replacement).discarded.bind fun _ => .pure none

theorem reportCycle {g : α → β} (node : NodeId) : Moves f g (Resolve.reportCycle node) (Resolve.reportCycle node) := by
  refine (requireSession node).bind fun _ => getSession.bind fun session => ?_
  refine (mapM (g := id) _ .nameOf).bind fun chain => ?_
  rw [List.map_id]
  exact (newFault (.cycle chain none)).bind fun fault => (locate fault node).bind fun _ => .throw _

theorem guardedWork {g : α → β} (node : NodeId) {wrap : Text → Cause} (wraps : ∀ message, (wrap message).renamed f = wrap message)
    {remember : FaultId → StoreM Unit} (remembers : ∀ fault, Unmoved f (remember fault)) {a : StoreM α} {b : StoreM β}
    (moves : Moves f g a b) : Moves f g (Resolve.guarded node wrap remember a) (Resolve.guarded node wrap remember b) := by
  have entered : Unmoved f (Resolve.enter node) := .modifySession fun _ => rfl
  have left : Unmoved f (Resolve.leave node) := .modifySession fun _ => rfl
  refine entered.bind fun _ => (moves.tryCatch fun e => ?_).cleaningUp left
  exact (asFault wraps e).bind fun fault => (locate fault node).bind fun _ => (remembers fault).bind fun _ => .throw _

theorem settleSequence (node : NodeId) (items declared : List NodeId) : Unmoved f (Resolve.settleSequence node items declared) := by
  refine .bind (.modifyBody node fun _ => rfl) fun _ => ?_
  exact .forM items fun item => (applyOverride item).discarded

theorem setModification (node : NodeId) (state : Progress Unit) : Unmoved f (Resolve.setModification node state) :=
  .modifyBody node fun b => by cases b <;> rfl

end Moves

/-! ## Work that refers to other work -/

namespace Calls.Uniform

variable {calls : Calls} (uniform : calls.Uniform f) {host : Host}
include uniform

theorem choose (node : NodeId) (options : Pairs) (fallback : Option Text) :
    Moves f id (Modify.choose calls node options fallback) (Modify.choose calls node (Pairs.renamed f options) fallback) := by
  have built (raw : Value) : Moves f id
      (do requireSession node; let replacement ← build raw (← nameOf node); replaceWith node replacement)
      (do requireSession node; let replacement ← build (raw.renamed f) (← nameOf node); replaceWith node replacement) := by
    simp only [build_renamed]
    exact (Moves.requireSession node).bind fun _ => (Moves.nameOf node).bind fun name => (Moves.build raw name).bind fun replacement =>
      .replaceWith node replacement
  refine (uniform.resolve node).bind fun v => (Moves.select options fallback v).bind fun option => ?_
  cases option with
  | object o =>
    cases o with
    | node option kind => exact (Moves.copy option).bind fun copied => .replaceWith node copied
    | _ => exact built _
  | _ => exact built _

theorem extend (node : NodeId) (base : Base) : Unmoved f (Modify.extend calls node base) := by
  have found (node : NodeId) : Unmoved f (Modify.baseNode calls node base) := by
    cases base with
    | node node => exact .pure node
    | address address =>
      exact (Moves.requireSession node).bind fun _ => Moves.getSession.bind fun session => uniform.fromAddress session.root address
  refine (Moves.current node).bind fun here => (Moves.kindOf here).bind fun kind => ?_
  refine .ite ((Moves.kindOf here).bind fun kind => .stopped (.construction _ _)) ?_
  refine (found here).bind fun base => (uniform.settled base).bind fun base => (Moves.kindOf base).bind fun kind => ?_
  refine .ite ((Moves.nameOf base).bind fun name => .stopped (.construction _ _)) (.ite (.stopped (.construction _ _)) ?_)
  refine .reading fun s m => ?_
  rw [Modify.overlay_renamed]
  exact (Moves.plant _).bind fun merged => .replaceWith here merged

theorem load (node : NodeId) (group : Option Text) (vars : Pairs) :
    Moves f id (Modify.load calls node group vars) (Modify.load calls node group (Pairs.renamed f vars)) := by
  have placed (unit : Text) (copy : NodeId) : Moves f id
      (do
        vars.forM fun p => Modify.setVariable unit copy p.1 p.2
        return some (← replaceWith node copy))
      (do
        (Pairs.renamed f vars).forM fun p => Modify.setVariable unit copy p.1 p.2
        return some (← replaceWith node copy)) := by
    simp only [Pairs.mapValues,List.forM_eq_forM,List.forM_map]
    exact (Moves.forM vars fun p => .setVariable unit copy p.1 p.2).bind fun _ =>
      (Moves.replaceWith node copy).bind fun now => .pure _
  refine (Moves.kindOf node).bind fun kind => .ite ((Moves.nameOf node).discarded.bind fun _ => .pure none) ?_
  refine (uniform.resolve node).bind fun v => ?_
  have named : Unmoved f (orThrow (Modify.unitName group v)) := .orThrow (by rw [id_map,Modify.unitName_cause])
  rw [Modify.unitName_renamed]
  exact named.bind fun unit => (Moves.checkNesting node unit).bind fun _ => (Moves.requireSession node).bind fun _ =>
    (Moves.instantiate unit).bind fun copy => placed unit copy

theorem sources (mapping : NodeId) (key : Text) : Unmoved f (Modify.sources calls mapping key) := by
  refine .reading fun s m => ?_
  rw [Store.findEntry_renamed]
  refine .ite (.pure []) ((uniform.child mapping (.key key)).bind fun value => (uniform.resolve value).bind fun v => ?_)
  cases v with
  | text t => exact .pure [t]
  | list id items =>
    simp only [Value.renamed,Value.renameAll_eq,Modify.texts?_renamed]
    cases Settings.texts? items with
    | some sources => exact .pure sources
    | none => exact .throwCause (.construction _ _)
  | _ => exact .throwCause (.construction _ _)

theorem applyAll (node : NodeId) (modifiers : List ModifierObject) :
    Moves f id (Modify.applyAll calls node modifiers) (Modify.applyAll calls node (modifiers.map (ModifierObject.renamed f))) := by
  rw [Modify.applyAll,Modify.applyAll,List.foldlM_map]
  exact .foldlM modifiers (fun node m => (uniform.apply m node).bind fun put => .current _) node

theorem fuse (given : host.Uniform f) (node : NodeId) : Unmoved f (Modify.fuse host calls node) := by
  have typed (result : NodeId) (sources : List Text) : Unmoved f (do
      let locals ← Expression.locals result
      let types ← sources.mapM fun source => Expression.types host calls source locals
      modifyNode result fun n => { n with types := some types.flatten }
      return result) := by
    refine (Moves.locals result).bind fun locals => ?_
    refine (Moves.mapM (g := id) sources fun source => uniform.types given source locals).bind fun types => ?_
    rw [List.map_id]
    exact .bind (.modifyNode result fun _ => rfl) fun _ => .pure result
  refine (uniform.settled node).bind fun mapping => .reading fun s m => ?_
  simp only [Store.kind_renamed,Store.keys_renamed,Store.findEntry_renamed]
  refine .ite (.stopped (.construction _ _)) (.ite (.stopped (.construction _ _)) ?_)
  refine (uniform.sources mapping "types").bind fun typeSources => (uniform.sources mapping "modifiers").bind fun modifierSources => ?_
  refine (uniform.child mapping (.key "value")).bind fun value => (Moves.replaceWith mapping value).bind fun start => ?_
  refine (Moves.requireSession start).bind fun _ => ?_
  have modified : Unmoved f (modifierSources.foldlM (fun node source => do
      let modifiers ← Expression.modifiers host calls source (← Expression.locals node)
      Modify.applyAll calls node modifiers) start) := by
    refine .foldlM modifierSources (fun node source => (Moves.locals node).bind fun locals => ?_) start
    exact (uniform.modifiers given source locals).bind fun modifiers => uniform.applyAll node modifiers
  refine modified.bind fun result => ?_
  exact .ite (typed result typeSources) (.pure result)

theorem apply_step (given : host.Uniform f) (m : ModifierObject) (node : NodeId) :
    Moves f id (Modify.apply host calls m node) (Modify.apply host calls (m.renamed f) node) := by
  obtain ⟨id,m⟩ := m
  match m with
  | .visibility hide => exact .bind (.modifyNode node fun _ => rfl) fun _ => .pure none
  | .required => exact .bind (.modifyNode node fun _ => rfl) fun _ => .pure none
  | .noop => exact .pure none
  | .promote => exact (Moves.promote node).map fun _ => rfl
  | .fuse => exact (uniform.fuse given node).map fun _ => rfl
  | .rename name => exact (Moves.rename node name).bind fun _ => .pure none
  | .options options fallback =>
    simp only [ModifierObject.renamed,Modifier.renamed,Value.renamePairs_eq]
    exact (uniform.choose node options fallback).map fun _ => rfl
  | .values values =>
    simp only [ModifierObject.renamed,Modifier.renamed,Value.renameAll_eq]
    exact (Moves.addTransform node (.among values)).bind fun _ => .pure none
  | .extends base => exact (uniform.extend node base).map fun _ => rfl
  | .load group none => exact uniform.load node group []
  | .load group (some vars) =>
    simp only [ModifierObject.renamed,Modifier.renamed,Value.renameVars_eq]
    exact uniform.load node group vars
  | .cast function => exact (Moves.addTransform node (.call function)).bind fun _ => .pure none
  | .custom kind name => exact .edit kind node (host.modifier name)

theorem settleEntries (mapping : NodeId) (entries : List NodeId) : Unmoved f (Resolve.settleEntries calls mapping entries) := by
  induction entries with
  | nil => exact .pure ()
  | cons entry rest ih => exact (Moves.getNode mapping).bind fun n => .ite (.pure ()) ((uniform.settle entry).bind fun _ => ih)

theorem declaration_step (given : host.Uniform f) (node : NodeId) :
    Moves f (Declaration.renamed f) (Resolve.declaration host calls node) (Resolve.declaration host calls node) := by
  have written (merged : Declaration) {u u' : Body → Body} (same : ∀ b, (u b).renamed f = u' (b.renamed f)) :
      Moves f (Declaration.renamed f) (do modifyBody node u; return merged) (do modifyBody node u'; return merged.renamed f) :=
    .bind (.modifyBody node same) fun _ => .pure merged
  refine (Moves.getNode node).bind fun n => ?_
  simp only [Node.renamed]
  cases n.body with
  | entry head slot declared renamed modification evaluated =>
    cases evaluated with
    | some d => exact .pure d
    | none =>
      refine (Moves.requireSession node).bind fun _ => .reading fun s m => ?_
      rw [Store.entryValue_renamed]
      refine (Moves.locals _).bind fun locals => (uniform.declarationOf given head.key.source locals).bind fun own => ?_
      cases head.inherited with
      | none =>
        simp only [pure_bind]
        refine written own fun b => ?_
        cases b <;> rfl
      | some base =>
        refine (uniform.declaration base).bind fun base => ?_
        refine (Moves.compute (Declaration.merge_moves own base)).bind fun merged => written merged fun b => ?_
        cases b <;> rfl
  | _ => exact .const rfl

theorem applyDeclaration (node slot : NodeId) : Unmoved f (Resolve.applyDeclaration calls node slot) := by
  have finished (modifiers : List ModifierObject) : Moves f id
      (do
        Resolve.setModification node (.done ())
        if !modifiers.isEmpty then discard (nameOf node))
      (do
        Resolve.setModification node (.done ())
        if !(modifiers.map (ModifierObject.renamed f)).isEmpty then discard (nameOf node)) := by
    rw [List.isEmpty_map]
    exact (Moves.setModification node _).bind fun _ => .ite (Moves.nameOf node).discarded (.pure ())
  refine (Moves.applyOverride slot).bind fun start => (uniform.declaration node).bind fun declared => ?_
  refine (uniform.applyAll start declared.modifiers).bind fun now => ?_
  simp only [Declaration.renamed]
  cases declared.types with
  | none => exact finished declared.modifiers
  | some types => exact .bind (.modifyNode now fun _ => rfl) fun _ => finished declared.modifiers

theorem settle_step (node : NodeId) : Unmoved f (Resolve.settle calls node) := by
  refine (Moves.getNode node).bind fun n => ?_
  simp only [Node.renamed]
  cases n.body with
  | scalar raw override => exact .pure ()
  | sequence items declared isSettled => exact .ite (.settleSequence node items declared) (.pure ())
  | mapping entries isSettled =>
    exact .ite (.bind (.modifyBody node fun _ => rfl) fun _ => uniform.settleEntries node entries) (.pure ())
  | entry head slot declared renamed modification evaluated =>
    cases modification with
    | done u => exact .pure ()
    | failed fault => exact .throw _
    | active => exact .reportCycle node
    | pending =>
      refine (Moves.requireSession node).bind fun _ => (Moves.setModification node .active).bind fun _ => ?_
      exact .guardedWork node (fun _ => rfl) (fun fault => .setModification node (.failed fault)) (uniform.applyDeclaration node slot)

theorem scalarValue (given : host.Uniform f) (node : NodeId) (raw : Literal) (override : Option Literal) :
    Moves f (Value.renamed f) (Resolve.scalarValue host calls node raw override) (Resolve.scalarValue host calls node raw override) := by
  have literal (l : Literal) : Moves f (Value.renamed f) (pure l.value : StoreM Value) (pure l.value : StoreM Value) :=
    .const (by cases l <;> rfl)
  refine (Moves.getNode node).bind fun n => .ite (.stopped (.requirement _)) ?_
  generalize override.getD raw = l
  cases l with
  | text t =>
    refine (Moves.requireSession node).bind fun _ => Moves.getSession.bind fun session => ?_
    simp only [Session.renamed]
    cases Resolve.classify session.settings t with
    | inl t => exact literal (.text t)
    | inr source =>
      refine (Moves.locals node).bind fun locals => (uniform.evaluate given source locals).bind fun v => ?_
      cases v with
      | object o =>
        cases o with
        | node target kind => exact uniform.resolve target
        | _ => exact .pure _
      | _ => exact .pure _
  | _ => exact literal _

theorem sequenceValue (items : List NodeId) :
    Moves f (Value.renamed f) (Resolve.sequenceValue calls items) (Resolve.sequenceValue calls items) := by
  refine .reading fun s m => ?_
  have current : (s.renamed f m).current = s.current := funext Store.current_renamed
  have hidden (item : NodeId) : ((s.renamed f m).node item).isHidden = (s.node item).isHidden := by
    rw [Store.node_renamed]
    rfl
  simp only [current,hidden]
  exact (Moves.mapM _ uniform.resolve).bind fun vs => .compute (.list vs)

theorem pairsOf (emitted : List (Text × Text)) (pairs : Pairs) (entries : List NodeId) :
    Moves f (Pairs.renamed f) (Resolve.pairsOf calls emitted pairs entries)
      (Resolve.pairsOf calls emitted (Pairs.renamed f pairs) entries) := by
  induction entries generalizing emitted pairs with
  | nil => exact .pure pairs
  | cons entry rest ih =>
    refine (uniform.entryValue entry).bind fun value => .reading fun s m => ?_
    have hidden : ((s.renamed f m).node value).isHidden = (s.node value).isHidden := by
      rw [Store.node_renamed]
      rfl
    simp only [id,hidden,Store.exposedKey_renamed,Store.entryKey_renamed]
    refine .ite (ih emitted pairs) ?_
    cases emitted.lookup (s.exposedKey entry) with
    | some previous => exact .stopped (.construction _ _)
    | none =>
      refine (uniform.resolve value).bind fun v => ?_
      rw [Pairs.insert_mapValues]
      exact ih _ _

theorem computeValue (given : host.Uniform f) (node : NodeId) :
    Moves f (Value.renamed f) (Resolve.computeValue host calls node) (Resolve.computeValue host calls node) := by
  refine (Moves.getNode node).bind fun n => ?_
  simp only [Node.renamed]
  cases n.body with
  | scalar raw override => exact uniform.scalarValue given node raw override
  | sequence items => exact uniform.sequenceValue items
  | mapping entries => exact (uniform.pairsOf [] [] entries).bind fun pairs => .compute (.mapping pairs)
  | entry =>
    refine .reading fun s m => ?_
    rw [Store.exposedKey_renamed]
    exact (uniform.entryValue node).bind fun value => (uniform.resolve value).bind fun v => .compute (.list [.text _,v])

theorem transform (given : host.Uniform f) (v : Value) (t : Transform) :
    Moves f (Value.renamed f) (Resolve.transform host calls v t) (Resolve.transform host calls (v.renamed f) (t.renamed f)) := by
  cases t with
  | call function => exact uniform.invoke function [v] []
  | among values => exact (Moves.checkAmong values v).bind fun _ => .pure v
  | host name => exact .compute (given.transform name v)

theorem finish (given : host.Uniform f) (node : NodeId) (computed : Value) :
    Moves f (Value.renamed f) (Resolve.finish host calls node computed) (Resolve.finish host calls node (computed.renamed f)) := by
  refine (Moves.getNode node).bind fun n => ?_
  simp only [Node.renamed,List.foldlM_map]
  refine (Moves.foldlM n.transforms (uniform.transform given) computed).bind fun v => (Moves.getNode node).bind fun n => ?_
  have accepts (type : TypeConstraint) : type.accepts (v.renamed f) = type.accepts v := by
    cases type with
    | null => cases v <;> rfl
    | named type => cases type <;> cases v <;> rfl
  simp only [accepts,Value.typeName_renamed,Node.renamed]
  cases n.types with
  | none => exact .pure v
  | some types => exact .ite (.stopped (.typeConstraint _ _)) (.pure v)

theorem work (given : host.Uniform f) (node : NodeId) :
    Moves f (Value.renamed f) (Resolve.work host calls node) (Resolve.work host calls node) := by
  have kept (v : Value) : Moves f (Value.renamed f)
      (do
        modifyNode node fun n => { n with resolution := .done v }
        return v)
      (do
        modifyNode node fun n => { n with resolution := .done (v.renamed f) }
        return v.renamed f) := .bind (.modifyNode node fun _ => rfl) fun _ => .pure v
  refine (uniform.settle node).bind fun _ => (Moves.current node).bind fun now => .ite ?_ ?_
  · exact (uniform.computeValue given node).bind fun computed => (uniform.finish given node computed).bind kept
  · exact (uniform.resolve now).bind kept

theorem resolve_step (given : host.Uniform f) (node : NodeId) :
    Moves f (Value.renamed f) (Resolve.resolve host calls node) (Resolve.resolve host calls node) := by
  refine (Moves.current node).bind fun now => .ite (uniform.resolve now) ((Moves.getNode node).bind fun n => ?_)
  simp only [Node.renamed]
  cases n.resolution with
  | done v => exact .pure v
  | failed fault => exact .throw _
  | active => exact .reportCycle node
  | pending =>
    have entered : Unmoved f (modifyNode node fun n => { n with resolution := .active }) := .modifyNode node fun _ => rfl
    have remembers (fault : FaultId) : Unmoved f (modifyNode node fun n => { n with resolution := .failed fault }) :=
      .modifyNode node fun _ => rfl
    refine (Moves.requireSession node).bind fun _ => entered.bind fun _ => ?_
    exact .guardedWork node (fun _ => rfl) remembers (uniform.work given node)

end Calls.Uniform

/-- Work to any depth takes no notice of a renaming of which the embedding program takes none. -/
theorem Calls.ofDepth_uniform {host : Host} (given : host.Uniform f) (depth : Nat) : (ofDepth host depth).Uniform f := by
  induction depth with
  | zero =>
    exact ⟨fun _ => .unending,fun _ => .unending,fun _ => .unending,fun _ _ => .unending,fun _ => .unending,fun _ _ => .unending,
      fun _ _ _ => .unending,fun _ _ _ => .unending⟩
  | succ depth ih =>
    exact ⟨ih.resolve_step given,ih.settle_step,ih.settled_step,ih.child_step,ih.declaration_step given,ih.apply_step given,
      fun o _ _ => ih.object given o,fun op _ _ => Eval.operate_moves op⟩

end ConfTree
