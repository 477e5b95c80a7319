import ConfTree.Proofs.Creation
import ConfTree.Proofs.Readings
import ConfTree.Proofs.Renaming.Known

/-!
# Configurations under other identities

Making and reading a configuration takes no notice of a renaming of free identities. So nothing in a configuration has an
identity that is still free, whatever was read of it (`Configuration.known`), and each of its expressions is evaluated where
all identities are known (`Configuration.ready`).
-/
namespace ConfTree

open StoreM

variable {f : Renaming} {n : Nat} {host : Host} {calls : Calls} {depth : Nat} {s t u : Store}

/-! ## Overrides -/

namespace Value

mutual

theorem isNative_renamed (v : Value) : (v.renamed f).isNative = v.isNative := by
  cases v with
  | list id items =>
    simp only [renamed,renameAll_eq,isNative]
    exact allNative_renamed items
  | mapping id pairs =>
    simp only [renamed,renamePairs_eq,isNative]
    exact allPairsNative_renamed pairs
  | _ => rfl
termination_by structural v

theorem allNative_renamed (vs : List Value) : allNative (vs.map (renamed f)) = allNative vs := by
  cases vs with
  | nil => rfl
  | cons v rest => rw [List.map_cons,allNative,allNative,isNative_renamed v,allNative_renamed rest]
termination_by structural vs

theorem allPairsNative_renamed (pairs : Pairs) : allPairsNative (pairs.renamed f) = allPairsNative pairs := by
  cases pairs with
  | nil => rfl
  | cons p rest =>
    obtain ⟨key,v⟩ := p
    have later : allPairsNative (Pairs.renamed f rest) = allPairsNative rest := allPairsNative_renamed rest
    show allPairsNative ((key,v.renamed f) :: Pairs.renamed f rest) = _
    rw [allPairsNative,allPairsNative,isNative_renamed v,later]
termination_by structural pairs

end

end Value

/-- An override with a value that has other identities. -/
def Override.renamed (f : Renaming) (o : Override) : Override := { o with value := o.value.renamed f }

namespace Overrides

theorem checkValue_renamed (target : Text) (v : Value) :
    checkValue target (v.renamed f) = (Value.renamed f <$> checkValue target v).mapError (Cause.renamed f) := by
  rw [checkValue,checkValue,Value.isNative_renamed,Value.typeName_renamed]
  split <;> rfl

theorem ofPairs_renamed (pairs : Pairs) :
    ofPairs (pairs.renamed f) = (Pairs.renamed f <$> ofPairs pairs).mapError (Cause.renamed f) := by
  induction pairs with
  | nil => rfl
  | cons p rest ih =>
    obtain ⟨key,v⟩ := p
    show ofPairs ((key,v.renamed f) :: Pairs.renamed f rest) = _
    rw [ofPairs,ofPairs,checkValue_renamed,ih,canonical]
    cases Grammar.parseTarget key with
    | error position => rfl
    | ok target =>
      cases checkValue key v with
      | error cause => rfl
      | ok v => cases ofPairs rest <;> rfl

end Overrides

namespace Calls.Uniform

variable (uniform : calls.Uniform f)
include uniform

theorem ofText (given : host.Uniform f) (source : Text) :
    Moves f (Pairs.renamed f) (Overrides.ofText host calls source) (Overrides.ofText host calls source) := by
  refine .ite (.pure []) (Moves.getSession.bind fun session => (Moves.check (g := id) (id_map _).symm).bind fun assignments => ?_)
  show Moves f (List.map fun p : Text × Value => (p.1,p.2.renamed f)) _ _
  refine .mapM assignments fun a => (uniform.evaluate given a.source []).bind fun v => ?_
  exact (Moves.orThrow (Overrides.checkValue_renamed a.target v)).bind fun v => .pure (a.target,v)

theorem ofInput (given : host.Uniform f) (v : Value) :
    Moves f (Pairs.renamed f) (Overrides.ofInput host calls v) (Overrides.ofInput host calls (v.renamed f)) := by
  cases v with
  | text source => exact uniform.ofText given source
  | mapping id pairs =>
    simp only [Value.renamed,Value.renamePairs_eq]
    exact .orThrow (Overrides.ofPairs_renamed pairs)
  | object o =>
    simp only [Value.renamed,Overrides.ofInput,Value.typeName,Object.typeName_renamed]
    exact .throwCause _
  | _ => exact .throwCause _

/-- Overrides are read from renamed inputs as from the inputs. -/
theorem ofInputs (given : host.Uniform f) (inputs : List Value) :
    Moves f (List.map (Override.renamed f)) (Overrides.ofInputs host calls inputs)
      (Overrides.ofInputs host calls (inputs.map (Value.renamed f))) := by
  have read : Moves f (List.map (Pairs.renamed f)) (inputs.mapM (Overrides.ofInput host calls))
      ((inputs.map (Value.renamed f)).mapM (Overrides.ofInput host calls)) := by
    rw [List.mapM_map]
    exact .mapM inputs fun v => uniform.ofInput given v
  refine read.bind fun groups => ?_
  have flat : (groups.map (Pairs.renamed f)).flatten = Pairs.renamed f groups.flatten := List.map_flatten.symm
  have targets : (Pairs.renamed f groups.flatten).map Prod.fst = groups.flatten.map Prod.fst := Pairs.keys_mapValues
  simp only [flat,targets]
  refine .ite (.stopped _) (.const ?_)
  simp only [Pairs.renamed,Pairs.mapValues,List.map_map,Function.comp_def,Override.renamed]

end Calls.Uniform

/-! ## Readings -/

namespace Moves

theorem root : Unmoved f Configuration.root := getSession.bind fun _ => pure _

theorem unused : Unmoved f Configuration.unused := getSession.bind fun _ => pure _

theorem isAddressFault (e : Thrown) : Unmoved f (Configuration.isAddressFault e) := by
  cases e with
  | foreign message => exact pure false
  | fault fault =>
    refine reading fun s m => ?_
    simp only [Store.renamed,Array.getElem?_map]
    cases s.faults[fault]? with
    | none => exact pure false
    | some found =>
      obtain ⟨cause,location,trail⟩ := found
      cases cause <;> exact pure _

end Moves

theorem Outline.line_renamed (depth : Nat) (opening : Text) (node : Node) :
    line depth opening (node.renamed f) = line depth opening node := by
  have label : label (node.renamed f) = label node := by
    simp only [Outline.label,Node.renamed]
    cases node.body <;> rfl
  rw [line,line,label]
  rfl

namespace Calls.Uniform

variable (uniform : calls.Uniform f)
include uniform

theorem getWith (address : Text) : Unmoved f (Configuration.getWith calls address) :=
  Moves.root.bind fun root => uniform.fromAddress root address

theorem nodeWith (selectors : List Selector) : Unmoved f (Configuration.nodeWith calls selectors) :=
  Moves.root.bind fun root => .foldlM selectors uniform.child root

theorem settleTargets : Unmoved f (Configuration.settleTargets calls) := by
  refine Moves.unused.bind fun targets => .forM targets fun target => ?_
  refine (uniform.getWith target).discarded.tryCatch fun e => (Moves.isAddressFault e).bind fun found => ?_
  exact .ite (.pure ()) (.throw e)

theorem reportUnused : Unmoved f (Configuration.reportUnused calls) := by
  have reported : Unmoved f (modifySession fun session => { session with isReported := true }) := .modifySession fun _ => rfl
  refine Moves.getSession.bind fun session => .ite (.pure ()) (uniform.settleTargets.bind fun _ => Moves.unused.bind fun targets => ?_)
  exact Moves.getSession.bind fun session => .ite (.stopped _) reported

theorem resolveWith : Moves f (Value.renamed f) (Configuration.resolveWith calls) (Configuration.resolveWith calls) :=
  Moves.root.bind fun root => (uniform.resolve root).bind fun v => uniform.reportUnused.bind fun _ => .pure v

theorem callWith (address : Text) :
    Moves f (Value.renamed f) (Configuration.callWith calls address) (Configuration.callWith calls address) :=
  .ite uniform.resolveWith ((uniform.getWith address).bind uniform.resolve)

theorem lines (fuel depth : Nat) (opening : Text) (node : NodeId) :
    Unmoved f (Outline.lines (Outline.settling calls) fuel depth opening node) := by
  induction fuel generalizing depth opening node with
  | zero => exact .unending
  | succ fuel ih =>
    refine (uniform.settled node).bind fun live => .reading fun s m => ?_
    have first : Outline.line depth opening ((s.renamed f m).node live) = Outline.line depth opening (s.node live) := by
      rw [Store.node_renamed,Outline.line_renamed]
    simp only [id,first,Store.body_renamed,Store.children_renamed]
    have part (entry : NodeId) : Unmoved f (do
        let value ← Navigate.entryValue calls entry
        Outline.lines (Outline.settling calls) fuel (depth + 1) (.concat [(← get).exposedKey entry,": "]) value) := by
      refine (uniform.entryValue entry).bind fun value => .reading fun s m => ?_
      rw [Store.exposedKey_renamed]
      exact ih _ _ value
    cases (s.node live).body with
    | mapping entries =>
      exact (Moves.mapM entries part).bind fun rest => .const (by simp)
    | sequence =>
      exact (Moves.mapM _ fun item => ih _ _ item).bind fun rest => .const (by simp)
    | _ => exact .const rfl

theorem describeWith (depth : Nat) : Unmoved f (Configuration.describeWith calls depth) :=
  Moves.root.bind fun root => (uniform.lines depth 0 .empty root).bind fun _ => .pure _

/-- A reading does in a renamed store what it does in the store. -/
theorem perform (reading : Reading) : Unmoved f (reading.perform calls) := by
  cases reading with
  | get address => exact (uniform.getWith address).discarded
  | node selectors => exact (uniform.nodeWith selectors).discarded
  | value node => exact (uniform.resolve node).discarded
  | resolve => exact uniform.resolveWith.discarded
  | call address => exact (uniform.callWith address).discarded
  | describe depth => exact (uniform.describeWith depth).discarded

end Calls.Uniform

/-! ## Known identities -/

namespace Registry

/-- The names that every registry starts with are known. -/
theorem known_standard {id : Identity} (functions : id < n) (low : firstFreeIdentity ≤ n) : Pairs.Known n (standard id) := by
  intro f keeps
  have lone (name : Text) (v : Value) (found : modifier? name = some v) : v.renamed f = v := by
    obtain ⟨m,listed,found⟩ := Option.bind_eq_some_iff.mp found
    obtain ⟨place,here,same⟩ := Option.bind_eq_some_iff.mp found
    obtain rfl := Option.some.inj same
    have inside : place < modifiers.length := (List.findIdx?_eq_some_iff_findIdx_eq.mp here).1
    have kept : f (place + 1) = place + 1 := keeps _ (Nat.lt_of_lt_of_le (Nat.succ_lt_succ inside) low)
    have plain : ∀ p ∈ modifiers, p.2.renamed f = p.2 := by simp [modifiers]
    obtain ⟨_,_,split,_⟩ := List.lookup_eq_some_iff.mp listed
    have plain := plain (name,m) (by simp [split])
    simp [kept,plain]
  have modifier (name : Text) : (modifierValue name).renamed f = modifierValue name := by
    rw [modifierValue]
    cases found : modifier? name with
    | some v => exact lone name v found
    | none =>
      simp only [Option.getD_none]
      split_ifs <;> rfl
  have function : f id = id := keeps id functions
  simp only [standard,Pairs.renamed,Pairs.mapValues,List.map_append,List.map_map,Function.comp_def,Value.renamed,Object.renamed,function,modifier]

end Registry
/-- What a configuration is made from has no identity from `n` on. -/
structure Options.Known (options : Options) (n : Nat) : Prop where
  overrides : ∀ f : Renaming, f.Keeps n → options.overrides.map (Value.renamed f) = options.overrides
  context : Pairs.Known n options.context
  registry : Pairs.Known n options.registry
  loader : ∀ f : Renaming, f.Keeps n →
    options.loader.map (fun load name => (Value.renamed f <$> load name).mapError (Failure.renamed f)) = options.loader

namespace Configuration

/-- Names are bound to renamed values as to the values. -/
theorem bindAll_renamed (registry : Registry) (context : Pairs) :
    bindAll (Pairs.renamed f registry) (Pairs.renamed f context) = Pairs.renamed f <$> bindAll registry context := by
  have register (r : Registry) (name : Text) (v : Value) :
      Registry.register (Pairs.renamed f r) name (v.renamed f) true = Pairs.renamed f <$> Registry.register r name v true := by
    rw [Registry.register,Registry.register,Pairs.contains_mapValues,Pairs.insert_mapValues]
    split
    · rfl
    · split <;> rfl
  induction context generalizing registry with
  | nil => rfl
  | cons p rest ih =>
    obtain ⟨name,v⟩ := p
    simp only [bindAll] at ih
    show List.foldlM _ _ ((name,v.renamed f) :: Pairs.renamed f rest) = _
    rw [bindAll,List.foldlM_cons,List.foldlM_cons,register]
    cases Registry.register registry name v true with
    | error issue => rfl
    | ok bound => exact ih bound

/-- The names of a configuration that is made of known identities are known. -/
theorem known_context {options : Options} (known : options.Known n) {context : Registry}
    (accepted : bindAll options.registry options.context = .ok context) : Pairs.Known n context := by
  intro f keeps
  have renamed := bindAll_renamed (f := f) options.registry options.context
  rw [known.registry f keeps,known.context f keeps,accepted] at renamed
  exact (Except.ok.inj renamed).symm

/-- Nothing in a configuration that was made has an identity that is still free. -/
theorem known_create {options : Options} {raw : Value} (known : options.Known n) (pure : host.Pure n)
    (run : Runs (createWith host (Calls.ofDepth host depth) options raw) (Store.empty n) (.ok ()) t) :
    n ≤ t.nextIdentity ∧ t.Known := by
  obtain ⟨settings,context,overrides,root,u,v,named,given,built,rfl⟩ := createWith_inv run
  have start : ((Store.empty n).inSession fun session => { session with settings,context }).Known := by
    intro f keeps
    have names : Pairs.renamed f context = context := known_context known named f keeps
    simp [Store.renamed,Store.inSession,Store.empty,Store.noSession,Session.renamed,names]
  have inputs (f : Renaming) (keeps : f.Keeps n) : Moves f (List.map (Override.renamed f))
      (Overrides.ofInputs host (Calls.ofDepth host depth) options.overrides)
      (Overrides.ofInputs host (Calls.ofDepth host depth) options.overrides) := by
    have read := (Calls.ofDepth_uniform (pure f keeps) depth).ofInputs (pure f keeps) options.overrides
    rwa [known.overrides f keeps] at read
  obtain ⟨low,overridden,_⟩ := start.after inputs given
  obtain ⟨low',grown,_⟩ := overridden.after (fun f _ => Moves.build raw .empty) built
  have low'' : n ≤ v.nextIdentity := Nat.le_trans low low'
  -- From here on the session is given its overrides and its loader, and the tree is made that of the session.
  have placed (f : Renaming) (keeps : f.Keeps v.nextIdentity) : Unmoved f (do
      modifySession fun session => { session with overrides, loader := options.loader }
      bindRoot root) := by
    refine .bind (.modifySession fun session => ?_) fun _ => .bind (.modifyNode root fun _ => rfl) fun _ => .modifySession fun _ => rfl
    exact congrArg (fun loader => { session.renamed f with overrides,loader }) (known.loader f (keeps.early low''))
  obtain ⟨_,made,_⟩ := grown.after placed (modifySession_run.bind (modifyNode_run.bind modifySession_run))
  exact ⟨low'',made⟩

/-- Nor has anything in one that was read. -/
theorem known_readings (known : s.Known) (pure : host.Pure s.nextIdentity) (readings : Readings (Calls.ofDepth host depth) s t) :
    s.nextIdentity ≤ t.nextIdentity ∧ t.Known := by
  induction readings with
  | start s => exact ⟨Nat.le_refl _,known⟩
  | next reading run _ ih =>
    obtain ⟨low,known,_⟩ := known.after (fun f keeps => (Calls.ofDepth_uniform (pure f keeps) depth).perform reading) run
    obtain ⟨high,known⟩ := ih known (pure.later low)
    exact ⟨Nat.le_trans low high,known⟩

/-- In a configuration, whatever was read of it, expressions of its nodes are evaluated where all identities are known. -/
theorem ready {options : Options} {raw : Value} {node : NodeId} {names : Pairs} (positive : 0 < n) (known : options.Known n)
    (pure : host.Pure n) (made : Runs (createWith host (Calls.ofDepth host depth) options raw) (Store.empty n) (.ok ()) s)
    (readings : Readings (Calls.ofDepth host depth) s t) (run : Runs (Expression.locals node) t (.ok names) u) :
    Eval.Ready host u.session.context names [] u := by
  obtain ⟨low,known⟩ := known_create known pure made
  obtain ⟨low',known⟩ := known_readings known (pure.later low) readings
  obtain ⟨low'',known,named⟩ := known.after (fun f _ => Moves.locals node) run
  have all := Nat.le_trans low (Nat.le_trans low' low'')
  exact ⟨Nat.lt_of_lt_of_le positive all,pure.later all,known.context,fun f keeps => Except.ok.inj (named f keeps),fun _ _ => rfl,known⟩

end Configuration

end ConfTree
