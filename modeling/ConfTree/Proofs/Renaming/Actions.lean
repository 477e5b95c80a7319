import ConfTree.Proofs.Renaming.Stores
import ConfTree.Modifier.Apply

/-!
# Actions under other identities

Two actions of which the second does in a renamed store what the first one does in the store itself (`Moves`). Whatever
is composed of such pairs is such a pair, so this is looked at only where a store is read or written.
-/
namespace ConfTree

open StoreM

variable {f : Renaming} {α β γ δ ι : Type}

/-- In a renamed store the second action does what the first one does in the store: it ends if that does, with what
that gives, renamed, and leaves the store that that leaves, renamed, provided that new things have the identities that
are free in the renamed store. -/
structure Moves (f : Renaming) (g : α → β) (a : StoreM α) (b : StoreM β) : Prop where
  runs : ∀ {s t : Store} {r : Except Thrown α}, Runs a s r t → s.nextIdentity ≤ t.nextIdentity ∧
    ∀ m : Nat, f.Carries s.nextIdentity t.nextIdentity m →
      Runs b (s.renamed f m) (g <$> r) (t.renamed f (m + (t.nextIdentity - s.nextIdentity)))
  endless : ∀ {s : Store} (m : Nat), a s = none → (∀ k, f.Carries s.nextIdentity k m) → b (s.renamed f m) = none

namespace Moves

variable {g : α → β} {h : γ → δ} {a : StoreM α} {b : StoreM β} {a' : α → StoreM γ} {b' : β → StoreM δ}

/-- A step that makes nothing and does not fail. -/
theorem of_step {v : Store → α} {t : Store → Store} (here : ∀ s, a s = some (.ok (v s),t s))
    (same : ∀ s, (t s).nextIdentity = s.nextIdentity)
    (there : ∀ s m, b (s.renamed f m) = some (.ok (g (v s)),(t s).renamed f m)) : Moves f g a b where
  runs {s u r} run := by
    obtain ⟨rfl,rfl⟩ : .ok (v s) = r ∧ t s = u := by simpa [Runs,here] using run
    refine ⟨Nat.le_of_eq (same s).symm,fun m _ => ?_⟩
    rw [same,Nat.sub_self]
    exact there s m
  endless m ran _ := by
    rw [here] at ran
    cases ran

theorem pure (v : α) : Moves f g (Pure.pure v) (Pure.pure (g v)) :=
  of_step (v := fun _ => v) (t := id) (fun _ => rfl) (fun _ => rfl) fun _ _ => rfl

/-- A result that is the same. -/
theorem const {v : α} {w : β} (same : g v = w) : Moves f g (Pure.pure v) (Pure.pure w) := same ▸ pure v

theorem throw (e : Thrown) : Moves f g (MonadExcept.throw e : StoreM α) (MonadExcept.throw e : StoreM β) where
  runs {s t r} run := by
    obtain ⟨rfl,rfl⟩ := Runs.throw_iff.mp run
    refine ⟨Nat.le_refl _,fun m _ => ?_⟩
    rw [Nat.sub_self]
    exact Runs.throw_iff.mpr ⟨rfl,rfl⟩
  endless _ ran _ := by cases ran

theorem unending : Moves f g (StoreM.unending : StoreM α) (StoreM.unending : StoreM β) where
  runs run := absurd run Runs.unending_iff
  endless _ _ _ := rfl

theorem bind (first : Moves f g a b) (rest : ∀ v, Moves f h (a' v) (b' (g v))) : Moves f h (a >>= a') (b >>= b') where
  runs {s u r} run := by
    rcases Runs.bind_inv run with ⟨v,t,run₁,run₂⟩ | ⟨e,run₁,rfl⟩
    · obtain ⟨low,moved⟩ := first.runs run₁
      obtain ⟨high,moved'⟩ := (rest v).runs run₂
      refine ⟨Nat.le_trans low high,fun m carries => ?_⟩
      rw [← Renaming.next_after m low high]
      exact (moved m (carries.early high)).bind (moved' _ (carries.later low))
    · obtain ⟨low,moved⟩ := first.runs run₁
      exact ⟨low,fun m carries => (moved m carries).bind_error⟩
  endless {s} m ran carries := by
    rw [Runs.bind_apply] at ran
    rcases ran₁ : a s with _ | ⟨e | v,t⟩
    · rw [Runs.bind_apply,first.endless m ran₁ carries]
    · rw [ran₁] at ran
      cases ran
    · rw [ran₁] at ran
      obtain ⟨low,moved⟩ := first.runs ran₁
      have ended : b (s.renamed f m) = some (.ok (g v),t.renamed f (m + (t.nextIdentity - s.nextIdentity))) := moved m (carries _)
      rw [Runs.bind_apply,ended]
      exact (rest v).endless _ ran fun k => (carries k).later low

theorem map {k : α → γ} {k' : β → δ} (moves : Moves f g a b) (same : ∀ v, h (k v) = k' (g v)) : Moves f h (k <$> a) (k' <$> b) := by
  rw [map_eq_pure_bind,map_eq_pure_bind]
  exact moves.bind fun v => const (same v)

theorem discarded (moves : Moves f g a b) : Moves f id (discard a) (discard b) := moves.map fun _ => rfl

/-- What is read from the store. -/
theorem reading {a' : Store → StoreM γ} {b' : Store → StoreM δ} (rest : ∀ s m, Moves f h (a' s) (b' (s.renamed f m))) :
    Moves f h (get >>= a') (get >>= b') where
  runs {s t r} run := by
    obtain ⟨low,-⟩ := (rest s 0).runs ((Runs.bind_iff get_run).mp run)
    exact ⟨low,fun m carries => get_run.bind (((rest s m).runs ((Runs.bind_iff get_run).mp run)).2 m carries)⟩
  endless {s} m ran carries := (rest s m).endless m ran carries

theorem tryCatch {handle : Thrown → StoreM α} {handle' : Thrown → StoreM β} (moves : Moves f g a b)
    (handled : ∀ e, Moves f g (handle e) (handle' e)) : Moves f g (tryCatch a handle) (tryCatch b handle') where
  runs {s u r} run := by
    rcases Runs.tryCatch_inv run with ⟨v,rfl,run₁⟩ | ⟨e,t,run₁,run₂⟩
    · obtain ⟨low,moved⟩ := moves.runs run₁
      exact ⟨low,fun m carries => Runs.tryCatch_ok (moved m carries)⟩
    · obtain ⟨low,moved⟩ := moves.runs run₁
      obtain ⟨high,moved'⟩ := (handled e).runs run₂
      refine ⟨Nat.le_trans low high,fun m carries => ?_⟩
      rw [← Renaming.next_after m low high]
      exact Runs.tryCatch_error (moved m (carries.early high)) (moved' _ (carries.later low))
  endless {s} m ran carries := by
    rw [Runs.tryCatch_apply] at ran
    rcases ran₁ : a s with _ | ⟨e | v,t⟩
    · rw [Runs.tryCatch_apply,moves.endless m ran₁ carries]
    · rw [ran₁] at ran
      obtain ⟨low,moved⟩ := moves.runs ran₁
      have ended : b (s.renamed f m) = some (.error e,t.renamed f (m + (t.nextIdentity - s.nextIdentity))) := moved m (carries _)
      rw [Runs.tryCatch_apply,ended]
      exact (handled e).endless _ ran fun k => (carries k).later low
    · rw [ran₁] at ran
      cases ran

theorem ite {p : Prop} [Decidable p] {a' : StoreM α} {b' : StoreM β} (yes : Moves f g a b) (no : Moves f g a' b') :
    Moves f g (if p then a else a') (if p then b else b') := by
  by_cases holds : p
  · rw [if_pos holds,if_pos holds]
    exact yes
  · rw [if_neg holds,if_neg holds]
    exact no

theorem cleaningUp {cleanup cleanup' : StoreM Unit} (moves : Moves f g a b) (cleans : Moves f id cleanup cleanup') :
    Moves f g (cleaningUp a cleanup) (cleaningUp b cleanup') := by
  have done : Moves f (Except.map g) (Except.ok <$> a : StoreM (Except Thrown α)) (Except.ok <$> b : StoreM (Except Thrown β)) :=
    moves.map fun _ => rfl
  refine (done.tryCatch fun e => const rfl).bind fun result => cleans.bind fun _ => ?_
  cases result with
  | ok v => exact pure v
  | error e => exact throw e

theorem mapM {a : ι → StoreM α} {b : ι → StoreM β} (xs : List ι) (moves : ∀ x, Moves f g (a x) (b x)) :
    Moves f (List.map g) (xs.mapM a) (xs.mapM b) := by
  induction xs with
  | nil => exact pure []
  | cons x rest ih =>
    rw [Runs.mapM_cons,Runs.mapM_cons]
    exact (moves x).bind fun v => ih.bind fun vs => pure (v :: vs)

theorem forM {a b : ι → StoreM PUnit} (xs : List ι) (moves : ∀ x, Moves f id (a x) (b x)) : Moves f id (xs.forM a) (xs.forM b) := by
  induction xs with
  | nil => exact pure _
  | cons x rest ih =>
    rw [Runs.forM_cons,Runs.forM_cons]
    exact (moves x).bind fun _ => ih

theorem foldlM {a : α → ι → StoreM α} {b : β → ι → StoreM β} (xs : List ι) (moves : ∀ v x, Moves f g (a v x) (b (g v) x)) (v : α) :
    Moves f g (xs.foldlM a v) (xs.foldlM b (g v)) := by
  induction xs generalizing v with
  | nil => exact pure v
  | cons x rest ih =>
    rw [List.foldlM_cons,List.foldlM_cons]
    exact (moves v x).bind ih

end Moves

/-! ## Reading, writing and faults -/

/-- An action that does in a renamed store what it does in the store, and gives the same. -/
abbrev Unmoved (f : Renaming) (a : StoreM α) : Prop := Moves f id a a

namespace Moves

variable {g : α → β}

theorem getNode (node : NodeId) : Moves f (Node.renamed f) (getNode node) (getNode node) := by
  refine of_step (t := id) (fun _ => rfl) (fun _ => rfl) fun s m => ?_
  rw [id,← Store.node_renamed]
  rfl

theorem getSession : Moves f (Session.renamed f) getSession getSession :=
  of_step (t := id) (fun _ => rfl) (fun _ => rfl) fun _ _ => rfl

theorem current (node : NodeId) : Unmoved f (current node) := by
  refine of_step (t := id) (fun _ => rfl) (fun _ => rfl) fun s m => ?_
  rw [id,← Store.current_renamed]
  rfl

theorem kindOf (node : NodeId) : Unmoved f (kindOf node) := by
  refine of_step (t := id) (fun _ => rfl) (fun _ => rfl) fun s m => ?_
  rw [id,← Store.kind_renamed]
  rfl

theorem modifySession {u u' : Session → Session} (same : ∀ session, (u session).renamed f = u' (session.renamed f)) :
    Moves f id (modifySession u) (modifySession u') := by
  refine of_step (v := fun _ => ()) (t := fun s => s.inSession u) (fun _ => rfl) (fun _ => rfl) fun s m => ?_
  have changed : (s.inSession u).renamed f m = (s.renamed f m).inSession u' := by
    simp [Store.renamed,Store.inSession,same]
  rw [changed]
  rfl

theorem modifyNode {u u' : Node → Node} (node : NodeId) (same : ∀ n, (u n).renamed f = u' (n.renamed f)) :
    Moves f id (modifyNode node u) (modifyNode node u') := by
  refine of_step (v := fun _ => ()) (t := fun s => s.update node u) (fun _ => rfl) (fun _ => rfl) fun s m => ?_
  have nodes : (s.nodes.modify node u).map (Node.renamed f) = (s.nodes.map (Node.renamed f)).modify node u' := by
    apply Array.ext
    · simp
    · intro i inside _
      simp only [Array.getElem_map,Array.getElem_modify]
      split
      · exact same _
      · rfl
  have changed : (s.update node u).renamed f m = (s.renamed f m).update node u' := by
    simp [Store.renamed,Store.update,nodes]
  rw [changed]
  rfl

theorem modifyBody {u u' : Body → Body} (node : NodeId) (same : ∀ b, (u b).renamed f = u' (b.renamed f)) :
    Moves f id (modifyBody node u) (modifyBody node u') :=
  modifyNode node fun n => by simp [Node.renamed,same]

theorem newNode {n n' : Node} (same : n.renamed f = n') : Moves f id (newNode n) (newNode n') := by
  refine of_step (t := fun s => s.push n) (fun _ => rfl) (fun _ => rfl) fun s m => ?_
  have changed : (s.push n).renamed f m = (s.renamed f m).push n' := by
    simp [Store.renamed,Store.push,same]
  rw [changed,id,← Store.size_renamed (f := f) (m := m)]
  rfl

theorem newFault (cause : Cause) : Moves f id (newFault cause) (newFault (cause.renamed f)) := by
  refine of_step (t := fun s => { s with faults := s.faults.push (.ofCause cause) }) (fun _ => rfl) (fun _ => rfl) fun s m => ?_
  have changed : (s.faults.push (.ofCause cause)).map (Fault.renamed f) =
      (s.faults.map (Fault.renamed f)).push (.ofCause (cause.renamed f)) := by
    simp [Fault.renamed,Fault.ofCause]
  have size : (s.faults.map (Fault.renamed f)).size = s.faults.size := Array.size_map
  simp only [Store.renamed,changed,id,← size]
  rfl

theorem throwCause (cause : Cause) : Moves f g (throwCause cause) (throwCause (cause.renamed f)) :=
  (newFault cause).bind fun fault => throw (.fault fault)

/-- What would follow is not done. -/
theorem stopped (cause : Cause) {a : γ → StoreM α} {b : γ → StoreM β} :
    Moves f g (StoreM.throwCause cause >>= a) (StoreM.throwCause (cause.renamed f) >>= b) := throwCause cause

theorem refuse (issue : EvalIssue) : Moves f g (refuse issue) (refuse issue) := throwCause (.eval issue)

/-- Refused for its type, which a renaming keeps. -/
theorem refused (issue : Text → EvalIssue) (v : Value) :
    Moves f g (StoreM.refuse (issue v.typeName)) (StoreM.refuse (issue (v.renamed f).typeName)) := by
  rw [Value.typeName_renamed]
  exact refuse _

theorem nameOf (node : NodeId) : Unmoved f (nameOf node) := by
  refine reading fun s m => ?_
  rw [Store.name_renamed]
  cases s.name node with
  | ok name => exact pure name
  | error issue =>
    cases issue with
    | endless => exact throw _
    | _ => exact throwCause (.address _)

theorem orThrow {r : Except Cause α} {r' : Except Cause β} (same : r' = (g <$> r).mapError (Cause.renamed f)) :
    Moves f g (orThrow r) (orThrow r') := by
  subst same
  cases r with
  | ok v => exact pure v
  | error cause => exact throwCause cause

theorem nodeValue (node : NodeId) : Moves f (Value.renamed f) (nodeValue node) (nodeValue node) :=
  (kindOf node).bind fun _ => const rfl

theorem requireSession (node : NodeId) : Unmoved f (requireSession node) := by
  refine reading fun s m => ?_
  rw [Store.top?_renamed]
  cases s.top? node with
  | none => exact unending
  | some top =>
    refine reading fun s m => ?_
    rw [Store.isBound_renamed]
    refine ite (pure ()) ?_
    exact (nameOf node).bind fun name => throwCause (.resolution _)

theorem locate (fault : FaultId) (node : NodeId) : Unmoved f (locate fault node) := by
  refine (nameOf node).bind fun name => (kindOf node).bind fun kind => ?_
  refine of_step (v := fun _ => ()) (t := fun s => { s with faults := s.faults.modify fault (·.locate name kind.name) })
    (fun _ => rfl) (fun _ => rfl) fun s m => ?_
  have changed : (s.faults.modify fault (·.locate name kind.name)).map (Fault.renamed f) =
      (s.faults.map (Fault.renamed f)).modify fault (·.locate name kind.name) := by
    have same (x : Fault) : (x.locate name kind.name).renamed f = (x.renamed f).locate name kind.name := by
      obtain ⟨cause,location,trail⟩ := x
      cases location with
      | none => rfl
      | some l => exact apply_ite (Fault.renamed f) _ _ _
    apply Array.ext
    · simp
    · intro i inside _
      simp only [Array.getElem_map,Array.getElem_modify]
      split
      · exact same _
      · rfl
  simp only [Store.renamed,changed]
  rfl

theorem asFault {wrap : Text → Cause} (wraps : ∀ message, (wrap message).renamed f = wrap message) (e : Thrown) :
    Unmoved f (asFault wrap e) := by
  cases e with
  | fault fault => exact pure fault
  | foreign message =>
    have fault := newFault (f := f) (wrap message)
    rwa [wraps] at fault

end Moves

/-! ## Displays and computations -/

theorem objectText_renamed (o : Object) : objectText (o.renamed f) = objectText o := by
  cases o <;> simp [objectText,Object.text]

mutual

theorem displayWith_renamed (v : Value) : (v.renamed f).displayWith objectText = v.displayWith objectText := by
  cases v with
  | list id items => simp only [Value.renamed,Value.renameAll_eq,Value.displayWith,displayItems_renamed items]
  | set id items => simp only [Value.renamed,Value.renameAll_eq,Value.displayWith,displayItems_renamed items]
  | mapping id pairs => simp only [Value.renamed,Value.renamePairs_eq,Value.displayWith,displayPairs_renamed pairs]
  | object o => exact objectText_renamed o
  | _ => rfl
termination_by structural v

theorem displayItems_renamed (vs : List Value) :
    Value.displayItems objectText (vs.map (Value.renamed f)) = Value.displayItems objectText vs := by
  cases vs with
  | nil => rfl
  | cons v rest => simp only [List.map_cons,Value.displayItems,displayWith_renamed v,displayItems_renamed rest]
termination_by structural vs

theorem displayPairs_renamed (pairs : Pairs) :
    Value.displayPairs objectText (pairs.renamed f) = Value.displayPairs objectText pairs := by
  cases pairs with
  | nil => rfl
  | cons p rest =>
    obtain ⟨key,v⟩ := p
    have later : Value.displayPairs objectText (Pairs.renamed f rest) = Value.displayPairs objectText rest := displayPairs_renamed rest
    show Value.displayPairs objectText ((key,v.renamed f) :: Pairs.renamed f rest) = _
    simp only [Value.displayPairs,displayWith_renamed v,later]
termination_by structural pairs

end

@[simp] theorem display_renamed (v : Value) : display (v.renamed f) = display v := displayWith_renamed v

@[simp] theorem textOf_renamed (v : Value) : textOf (v.renamed f) = textOf v := by
  cases v with
  | text t => rfl
  | _ => exact displayWith_renamed _

namespace Moves

variable {g : α → β}

theorem objectText (o : Object) : Unmoved f (objectText o) := by
  cases o with
  | node node kind => exact (nameOf node).bind fun name => (kindOf node).bind fun kind => pure _
  | _ => exact pure _

mutual

theorem display (v : Value) : Unmoved f (v.displayWith StoreM.objectText) := by
  cases v with
  | list id items => exact (displayItems items).bind fun _ => pure _
  | set id items => exact (displayItems items).bind fun _ => pure _
  | mapping id pairs => exact (displayPairs pairs).bind fun _ => pure _
  | object o => exact objectText o
  | _ => exact pure _
termination_by structural v

theorem displayItems (vs : List Value) : Unmoved f (Value.displayItems StoreM.objectText vs) := by
  cases vs with
  | nil => exact pure _
  | cons v rest => exact (display v).bind fun _ => (displayItems rest).bind fun _ => pure _
termination_by structural vs

theorem displayPairs (pairs : Pairs) : Unmoved f (Value.displayPairs StoreM.objectText pairs) := by
  cases pairs with
  | nil => exact pure _
  | cons p rest =>
    obtain ⟨key,v⟩ := p
    exact (display v).bind fun _ => (displayPairs rest).bind fun _ => pure _
termination_by structural pairs

end

theorem textOf (v : Value) : Unmoved f (textOf v) := by
  cases v with
  | text t => exact pure t
  | _ => exact display _

theorem throwFailure (e : Failure) : Moves f g (throwFailure e) (throwFailure (e.renamed f)) := by
  cases e with
  | cause cause => exact throwCause cause
  | foreign message => exact throw (.foreign message)
  | showing v issue =>
    show Moves f g (StoreM.display v >>= _) (StoreM.display (v.renamed f) >>= _)
    rw [display_renamed]
    exact (display v).bind fun shown => throwCause (.eval (issue shown))

theorem compute_failed {c : Compute α} {e : Failure} {s : Store} (failed : c s.nextIdentity = .error e) :
    StoreM.compute c s = StoreM.throwFailure e s := by
  have got : (get : StoreM Store) s = some (.ok s,s) := rfl
  rw [StoreM.compute,Runs.bind_apply,got]
  simp only [failed]

theorem compute {c : Compute α} {d : Compute β} (moves : Compute.Moves f g c d) : Moves f g (compute c) (compute d) where
  runs {s t r} run := by
    have last := (Runs.bind_iff get_run).mp run
    cases ran : c s.nextIdentity with
    | ok p =>
      obtain ⟨v,k⟩ := p
      obtain ⟨rfl,rfl⟩ := Runs.unique run (compute_run ran)
      obtain ⟨low,moved⟩ := moves.value ran
      exact ⟨low,fun m carries => compute_run (moved m carries)⟩
    | error e =>
      simp only [ran] at last
      obtain ⟨low,moved⟩ := (throwFailure (g := g) e).runs last
      refine ⟨low,fun m carries => get_run.bind ?_⟩
      have failed : d (s.renamed f m).nextIdentity = .error (e.renamed f) := moves.failure m ran
      simp only [failed]
      exact moved m carries
  endless {s} m ended carries := by
    cases ran : c s.nextIdentity with
    | ok p => cases ended.symm.trans (compute_run ran)
    | error e =>
      rw [compute_failed ran] at ended
      rw [compute_failed (moves.failure m ran)]
      exact (throwFailure (g := g) e).endless m ended carries

theorem check {r : Except EvalIssue α} {r' : Except EvalIssue β} (same : r' = g <$> r) : Moves f g (check r) (check r') :=
  compute (.lift same)

end Moves
end ConfTree
