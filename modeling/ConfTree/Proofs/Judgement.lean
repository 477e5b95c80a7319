import ConfTree.Proofs.Discipline

/-!
Judgements of actions. A judgement holds of a composed action when it holds of its parts, and of whatever ends
and leaves nodes and session alone (`Quiet`); so it is looked at where the work on a tree refers to other work
or writes, and nowhere else. That an action keeps to a discipline is a judgement (`Discipline.keeping`), that
it ends is one (`Ends`), and so is both at once (`Discipline.completing`).
-/
namespace ConfTree

open StoreM

variable {α β : Type} {s t u : Store}

/-- A judgement of actions, made by their parts. -/
structure Judgement where
  Holds : {α : Type} → StoreM α → Prop
  quiet : ∀ {α : Type} {a : StoreM α}, (∀ s, ∃ r t, Runs a s r t ∧ s.Alike t) → Holds a
  bind : ∀ {α β : Type} {a : StoreM α} {f : α → StoreM β}, Holds a → (∀ v, Holds (f v)) → Holds (a >>= f)
  catching : ∀ {α : Type} {a : StoreM α} {handle : Thrown → StoreM α},
    Holds a → (∀ e, Holds (handle e)) → Holds (tryCatch a handle)

namespace Judgement.Holds

variable {J : Judgement} {a : StoreM α} {f : α → StoreM β}

theorem pure (v : α) : J.Holds (Pure.pure v : StoreM α) := J.quiet fun s => ⟨_,s,Runs.ok v s,.refl s⟩

theorem throw (e : Thrown) : J.Holds (throw e : StoreM α) := J.quiet fun s => ⟨_,s,Runs.throw_iff.mpr ⟨rfl,rfl⟩,.refl s⟩

theorem bind (first : J.Holds a) (rest : ∀ v, J.Holds (f v)) : J.Holds (a >>= f) := J.bind first rest

theorem tryCatch {handle : Thrown → StoreM α} (holds : J.Holds a) (handled : ∀ e, J.Holds (handle e)) :
    J.Holds (tryCatch a handle) := J.catching holds handled

theorem map {g : α → β} (holds : J.Holds a) : J.Holds (g <$> a) := by
  rw [map_eq_pure_bind]
  exact holds.bind fun _ => pure _

/-- What follows a check, whether it is made or not. -/
theorem checked {p : Prop} [Decidable p] {check : StoreM β} (checks : J.Holds check) (holds : J.Holds a) :
    J.Holds (if p then check >>= fun _ => a else a) := by
  split
  · exact checks.bind fun _ => holds
  · exact holds

theorem forM {f : α → StoreM PUnit} (xs : List α) (holds : ∀ x ∈ xs, J.Holds (f x)) : J.Holds (xs.forM f) := by
  induction xs with
  | nil => exact pure _
  | cons x rest ih =>
    rw [Runs.forM_cons]
    exact (holds x (by simp)).bind fun _ => ih fun y member => holds y (List.mem_cons_of_mem _ member)

theorem mapM {f : α → StoreM β} (xs : List α) (holds : ∀ x ∈ xs, J.Holds (f x)) : J.Holds (xs.mapM f) := by
  induction xs with
  | nil => exact pure _
  | cons x rest ih =>
    rw [Runs.mapM_cons]
    exact (holds x (by simp)).bind fun _ =>
      (ih fun y member => holds y (List.mem_cons_of_mem _ member)).bind fun _ => pure _

theorem foldlM {f : β → α → StoreM β} (xs : List α) (holds : ∀ b, ∀ x ∈ xs, J.Holds (f b x)) (b : β) :
    J.Holds (xs.foldlM f b) := by
  induction xs generalizing b with
  | nil => exact pure _
  | cons x rest ih =>
    rw [List.foldlM_cons]
    exact (holds b x (by simp)).bind fun next => ih (fun b y member => holds b y (List.mem_cons_of_mem _ member)) next

end Judgement.Holds

/-! ## Keeping and completing -/

namespace Discipline

variable (D : Discipline)

/-- That an action keeps to the discipline, if it ends. -/
def keeping : Judgement where
  Holds a := D.Keeps a
  quiet quiet s r t fits run := by
    obtain ⟨_,_,run',alike⟩ := quiet s
    obtain ⟨_,rfl⟩ := Runs.unique run' run
    exact D.alike s _ alike fits
  bind := Keeps.bind
  catching := Keeps.tryCatch

/-- From this store, if it fits, the action ends and keeps to the discipline. -/
def CompletesAt (s : Store) (a : StoreM α) : Prop := D.Fits s → Leads a s fun t => D.Fits t ∧ D.Reaches s t

variable {D} {a : StoreM α} {f : α → StoreM β}

namespace CompletesAt

/-- What follows starts from a store that the first action leaves, and that this store may come to. -/
theorem followed (first : D.CompletesAt s a) (rest : ∀ v t, Runs a s (.ok v) t → D.Reaches s t → D.CompletesAt t (f v)) :
    D.CompletesAt s (a >>= f) := by
  intro fits
  obtain ⟨r,t,run,fits',reaches⟩ := first fits
  cases r with
  | error e => exact ⟨_,t,run.bind_error,fits',reaches⟩
  | ok v =>
    obtain ⟨r,u,last,fits'',further⟩ := rest v t run reaches fits'
    exact ⟨r,u,run.bind last,fits'',D.trans _ _ _ reaches further⟩

theorem pure (v : α) : D.CompletesAt s (Pure.pure v) := fun fits => ⟨_,s,Runs.ok v s,fits,D.refl s⟩

theorem throw (e : Thrown) : D.CompletesAt s (throw e : StoreM α) := fun fits => ⟨_,s,Runs.throw_iff.mpr ⟨rfl,rfl⟩,fits,D.refl s⟩

theorem bind (first : D.CompletesAt s a) (rest : ∀ v s, D.CompletesAt s (f v)) : D.CompletesAt s (a >>= f) :=
  first.followed fun v t _ _ => rest v t

/-- What follows an action that only reads starts from the same store. -/
theorem after {v : α} (read : Runs a s (.ok v) s) (rest : D.CompletesAt s (f v)) : D.CompletesAt s (a >>= f) := by
  intro fits
  obtain ⟨r,t,run,kept⟩ := rest fits
  exact ⟨r,t,read.bind run,kept⟩

theorem keepsAt (completes : D.CompletesAt s a) : D.KeepsAt s a := by
  intro r t fits run
  obtain ⟨_,_,run',kept⟩ := completes fits
  obtain ⟨_,rfl⟩ := Runs.unique run' run
  exact kept

end CompletesAt

variable (D)

/-- That an action ends and keeps to the discipline. -/
def completing : Judgement where
  Holds a := ∀ s, D.CompletesAt s a
  quiet quiet s fits := by
    obtain ⟨r,t,run,alike⟩ := quiet s
    exact ⟨r,t,run,D.alike s t alike fits⟩
  bind first rest s := (first s).bind rest
  catching {_ a handle} completes handled s fits := by
    obtain ⟨r,t,run,fits',reaches⟩ := completes s fits
    cases r with
    | ok v => exact ⟨_,t,Runs.tryCatch_ok run,fits',reaches⟩
    | error e =>
      obtain ⟨r,u,last,fits'',further⟩ := handled e t fits'
      exact ⟨r,u,Runs.tryCatch_error run last,fits'',D.trans _ _ _ reaches further⟩

end Discipline

/-! ## Ending -/

/-- That an action ends, whatever it does. -/
def Judgement.ending : Judgement where
  Holds a := ∀ s, ∃ r t, Runs a s r t
  quiet quiet s := by
    obtain ⟨r,t,run,_⟩ := quiet s
    exact ⟨r,t,run⟩
  bind first rest s := Runs.bind_ends (first s) fun v t _ => rest v t
  catching ends handled s := Runs.tryCatch_ends (ends s) handled

/-- The action ends, from whatever store. -/
abbrev Ends (a : StoreM α) : Prop := Judgement.ending.Holds a

/-! ## Quiet actions -/

/-- That an action ends and leaves nodes and session alone, whatever it reports or counts. -/
def Judgement.quietness : Judgement where
  Holds a := ∀ s, ∃ r t, Runs a s r t ∧ s.Alike t
  quiet quiet := quiet
  bind first rest s := by
    obtain ⟨r,t,run,alike⟩ := first s
    cases r with
    | error e => exact ⟨_,t,run.bind_error,alike⟩
    | ok v =>
      obtain ⟨r,u,last,further⟩ := rest v t
      exact ⟨r,u,run.bind last,alike.trans further⟩
  catching quiet handled s := by
    obtain ⟨r,t,run,alike⟩ := quiet s
    cases r with
    | ok v => exact ⟨_,t,Runs.tryCatch_ok run,alike⟩
    | error e =>
      obtain ⟨r,u,last,further⟩ := handled e t
      exact ⟨r,u,Runs.tryCatch_error run last,alike.trans further⟩

/-- The action ends and leaves nodes and session alone. -/
abbrev Quiet (a : StoreM α) : Prop := Judgement.quietness.Holds a

namespace Quiet

variable {a : StoreM α}

theorem judged {J : Judgement} (quiet : Quiet a) : J.Holds a := J.quiet quiet

/-- A discipline is kept where nothing matters to it. -/
theorem keeps {D : Discipline} (quiet : Quiet a) : D.Keeps a := D.keeping.quiet quiet

theorem still (quiet : Quiet a) : Still a := quiet.keeps

theorem alike {r : Except Thrown α} (quiet : Quiet a) (run : Runs a s r t) : s.Alike t := (quiet.still s r t trivial run).2

theorem of_eq {g : Store → α} (same : ∀ s, a s = some (.ok (g s),s)) : Quiet a := fun s => ⟨_,_,same s,.refl s⟩

theorem get : Quiet (MonadState.get : StoreM Store) := of_eq fun _ => rfl

theorem getNode (id : NodeId) : Quiet (getNode id) := of_eq fun _ => rfl

theorem kindOf (id : NodeId) : Quiet (kindOf id) := of_eq fun _ => rfl

theorem current (id : NodeId) : Quiet (current id) := of_eq fun _ => rfl

theorem getSession : Quiet getSession := of_eq fun _ => rfl

theorem nodeValue (id : NodeId) : Quiet (nodeValue id) := of_eq fun _ => rfl

theorem newFault (cause : Cause) : Quiet (newFault cause) := fun _ => ⟨_,_,rfl,rfl,rfl⟩

theorem throwCause (cause : Cause) : Quiet (throwCause cause : StoreM α) := (newFault cause).bind fun _ => .throw _

theorem orThrow (r : Except Cause α) : Quiet (orThrow r) := by
  cases r with
  | ok v => exact .pure v
  | error cause => exact throwCause cause

theorem nameOf (id : NodeId) : Quiet (nameOf id) := get.bind fun s => by
  split
  · exact .pure _
  · exact .throw _
  · exact throwCause _

theorem nodeText (id : NodeId) : Quiet (nodeText id) := (nameOf id).bind fun _ => (kindOf id).bind fun _ => .pure _

theorem objectText (o : Object) : Quiet (objectText o) := by
  cases o with
  | node id kind => exact nodeText id
  | _ => exact .pure _

mutual

theorem displayWith (v : Value) : Quiet (v.displayWith StoreM.objectText) := by
  cases v with
  | list id items => exact (displayItems items).bind fun _ => .pure _
  | set id items => exact (displayItems items).bind fun _ => .pure _
  | mapping id pairs => exact (displayPairs pairs).bind fun _ => .pure _
  | object o => exact objectText o
  | _ => exact .pure _

theorem displayItems (items : List Value) : Quiet (Value.displayItems StoreM.objectText items) := by
  cases items with
  | nil => exact .pure _
  | cons v rest => exact (displayWith v).bind fun _ => (displayItems rest).bind fun _ => .pure _

theorem displayPairs (pairs : Pairs) : Quiet (Value.displayPairs StoreM.objectText pairs) := by
  cases pairs with
  | nil => exact .pure _
  | cons p rest =>
    obtain ⟨key,v⟩ := p
    exact (displayWith v).bind fun _ => (displayPairs rest).bind fun _ => .pure _

end

theorem display (v : Value) : Quiet (display v) := displayWith v

theorem textOf (v : Value) : Quiet (textOf v) := by
  cases v with
  | text t => exact .pure t
  | _ => exact displayWith _

theorem throwFailure (failure : Failure) : Quiet (throwFailure failure : StoreM α) := by
  cases failure with
  | cause cause => exact throwCause cause
  | foreign message => exact .throw _
  | showing v issue => exact (display v).bind fun _ => throwCause _

theorem compute (c : Compute α) : Quiet (compute c) := fun s => by
  rcases outcome : c s.nextIdentity with failure | ⟨v,next⟩
  · obtain ⟨r,t,run,alike⟩ := throwFailure failure s
    exact ⟨r,t,get_run.bind (by simpa only [outcome] using run),alike⟩
  · exact ⟨.ok v,{ s with nextIdentity := next },get_run.bind (by simp only [outcome]; rfl),rfl,rfl⟩

theorem check (r : Except EvalIssue α) : Quiet (check r) := compute _

theorem refuse (issue : EvalIssue) : Quiet (refuse issue : StoreM α) := throwCause _

theorem asFault (cause : Text → Cause) (thrown : Thrown) : Quiet (asFault cause thrown) := by
  cases thrown with
  | fault id => exact .pure id
  | foreign message => exact newFault _

theorem locate (fault : FaultId) (id : NodeId) : Quiet (locate fault id) :=
  (nameOf id).bind fun _ => (kindOf id).bind fun _ _ => ⟨_,_,rfl,rfl,rfl⟩

end Quiet

namespace Still

/-- The search for the session leaves nodes and session alone, and does not end where it goes in a circle. -/
theorem requireSession (id : NodeId) : Still (requireSession id) := Quiet.get.still.bind fun s => by
  split
  · exact .unending
  · refine Quiet.get.still.bind fun s => ?_
    split
    · exact .pure _
    · exact (Quiet.nameOf id).still.bind fun _ => (Quiet.throwCause _).still

end Still

/-! ## Work that is refused -/

/-- The action throws, and leaves nodes and session alone. -/
structure Refuses (a : StoreM α) : Prop where
  still : Still a
  throws : ∀ s r t, Runs a s r t → ∃ e, r = .error e

namespace Refuses

variable {a : StoreM α} {f : α → StoreM β}

theorem throw (e : Thrown) : Refuses (throw e : StoreM α) where
  still := Discipline.Keeps.throw e
  throws _ _ _ run := ⟨e,(Runs.throw_iff.mp run).1⟩

theorem throwCause (cause : Cause) : Refuses (throwCause cause : StoreM α) where
  still := (Quiet.throwCause cause).still
  throws s r t run := by
    cases r with
    | ok v => exact absurd run throwCause_fails
    | error e => exact ⟨e,rfl⟩

/-- What follows something refused does not matter. -/
theorem first (refuses : Refuses a) (f : α → StoreM β) : Refuses (a >>= f) where
  still := Still.of_runs fun s r t run => by
    rcases Runs.bind_inv run with ⟨_,_,impossible,_⟩ | ⟨_,thrown,_⟩
    · obtain ⟨e,same⟩ := refuses.throws _ _ _ impossible
      cases same
    · exact (refuses.still s _ t trivial thrown).2
  throws s r t run := by
    rcases Runs.bind_inv run with ⟨_,_,impossible,_⟩ | ⟨e,_,same⟩
    · obtain ⟨e,same⟩ := refuses.throws _ _ _ impossible
      cases same
    · exact ⟨e,same⟩

theorem after (quiet : Quiet a) (rest : ∀ v, Refuses (f v)) : Refuses (a >>= f) where
  still := quiet.still.bind fun v => (rest v).still
  throws s r t run := by
    rcases Runs.bind_inv run with ⟨v,u,_,last⟩ | ⟨e,_,same⟩
    · exact (rest v).throws u r t last
    · exact ⟨e,same⟩

theorem run (refuses : Refuses a) {r : Except Thrown α} (run : Runs a s r t) : (∃ e, r = .error e) ∧ s.Alike t :=
  ⟨refuses.throws s r t run,(refuses.still s r t trivial run).2⟩

end Refuses
end ConfTree
