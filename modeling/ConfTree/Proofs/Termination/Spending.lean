import ConfTree.Proofs.Termination.Overriding

/-!
What is saved by work. The cost of the work that is left never rises over work on a tree, and what is worked on
once saves a part of it beforehand (`Store.Saves`); so the work that this refers to can be done with less. Where a
node was replaced something was saved, so what then starts again at the new node can be done with less as well
(`Store.Spends`).
-/
namespace ConfTree

open StoreM

/-! ## What is begun once -/

theorem Node.Eased.computed {state : Progress Value} (begun : state ≠ .pending) (n : Node) : n.Eased (Resolve.computed state n) :=
  ⟨⟨⟨rfl,rfl,rfl,rfl,rfl⟩,rfl⟩,fun unmodified => unmodified,fun price => by
    cases state with
    | pending => exact absurd rfl begun
    | _ => exact Nat.le_add_right _ _⟩

theorem Node.Eased.modified {state : Progress Unit} (begun : state ≠ .pending) (n : Node) : n.Eased (Resolve.modified state n) := by
  obtain ⟨body⟩ := n
  cases body with
  | entry head slot declared renamed modification evaluated =>
    refine .of_body rfl rfl rfl (fun unmodified => unmodified) fun price => ?_
    cases state with
    | pending => exact absurd rfl begun
    | _ => exact Nat.zero_le _
  | _ => exact .refl _

namespace Store.Eased

variable {s t : Store}

theorem of_changed {id : NodeId} (changed : Changed Node.Eased id s t) : s.Eased t where
  size := changed.size
  node other := by
    by_cases same : other = id
    · exact same ▸ changed.here
    · rw [changed.others other same]
      exact .refl _
  root := by rw [changed.session]
  overrides o listed := ⟨o,changed.session ▸ listed,rfl,rfl⟩

theorem busy {f : Session → List NodeId} : s.Eased (s.inSession fun session => { session with busy := f session }) :=
  .inSession rfl fun o listed => ⟨o,listed,rfl,rfl⟩

end Store.Eased

namespace Store

variable {b : Bounds} {g : Nat → Nat} {s t u : Store}

/-- What there was is there still, of the same kind, and less work is left. -/
structure Saves (b : Bounds) (s t : Store) : Prop extends Stays s t where
  lowers : ∀ n, s.Affords b n → ∃ k, k < n ∧ t.Affords b k

/-- What there was is there still, of the same kind, and no more work is left, but less if a node was replaced. -/
structure Spends (b : Bounds) (s t : Store) : Prop extends Stays s t where
  affords : ∀ n, s.Affords b n → t.Affords b n
  replaced : (∀ id, s.Live id → t.Live id) ∨ s.Saves b t

theorem Eased.affords {n : Nat} (eased : s.Eased t) (affords : s.Affords b n) : t.Affords b n := by
  obtain ⟨g,graded,cost⟩ := affords
  exact ⟨g,eased.graded graded,Nat.le_trans eased.cost_le cost⟩

namespace Spends

theorem of_eased (eased : s.Eased t) : s.Spends b t where
  toStays := eased.linked.shaped.stays
  affords _ affords := eased.affords affords
  replaced := .inl fun id live => (eased.linked.shaped.live id).mpr live

theorem refl (s : Store) : s.Spends b s := of_eased (.of_alike (.refl s))

end Spends

namespace Saves

theorem spends (saves : s.Saves b t) : s.Spends b t where
  toStays := saves.toStays
  affords n affords := by
    obtain ⟨k,less,affords⟩ := saves.lowers n affords
    exact affords.mono (Nat.le_of_lt less)
  replaced := .inr saves

/-- What was saved is saved still when no more is left to do. -/
theorem before (saves : s.Saves b t) (spends : t.Spends b u) : s.Saves b u where
  toStays := saves.toStays.trans spends.toStays
  lowers n affords := by
    obtain ⟨k,less,affords⟩ := saves.lowers n affords
    exact ⟨k,less,spends.affords k affords⟩

theorem eased (saves : s.Saves b t) (eased : t.Eased u) : s.Saves b u := saves.before (.of_eased eased)

/-- What was no longer to be done at a node, except for the price of places, is saved once these are paid. -/
theorem of_raised {id : Nat} (places : Nat) (slots : List Nat) (eased : s.Eased t) (old : id < s.nodes.size)
    (less : ∀ price, (t.node id).toll price + (places * price + 1) ≤ (s.node id).toll price) (graded : s.Graded b g)
    (raised : ∀ g, s.Graded b g → ∃ g', Raised b g g' t u slots (places * b.price (b.reach - g id))) : s.Saves b u := by
  obtain ⟨_,one⟩ := raised g graded
  exact {
    toStays := eased.linked.shaped.stays.trans one.toStays
    lowers := by
      rintro n ⟨g,graded,cost⟩
      obtain ⟨g',raised⟩ := raised g graded
      have saved := eased.cost_add_le (b := b) (g := g) old (less _)
      have paid := raised.cost
      exact ⟨n - 1,by omega,g',raised.graded,by omega⟩ }

/-- An action saves something if it raises what is left to do by no more than was reckoned for it at a node. -/
theorem paid {α : Type} {a : StoreM α} {id : Nat} (places : Nat) (slots : List Nat) (eased : s.Eased t) (old : id < s.nodes.size)
    (less : ∀ price, (t.node id).toll price + (places * price + 1) ≤ (s.node id).toll price) (graded : s.Graded b g)
    (raises : ∀ g, s.Graded b g → Leads a t fun u => ∃ g', Raised b g g' t u slots (places * b.price (b.reach - g id))) :
    Leads a t fun u => s.Saves b u :=
  (Leads.all raises graded).mono fun _ raised => of_raised places slots eased old less graded raised

/-- What is no longer to be done at a node is saved. -/
theorem of_eased {id : Nat} (eased : s.Eased t) (old : id < s.nodes.size)
    (less : ∀ price, (t.node id).toll price + 1 ≤ (s.node id).toll price) (graded : s.Graded b g) : s.Saves b t :=
  of_raised 0 [] eased old (fun price => by simpa using less price) graded fun g graded =>
    ⟨g,.of_eased (eased.graded graded) (.of_alike (.refl t))⟩

end Saves

namespace Spends

theorem trans (first : s.Spends b t) (second : t.Spends b u) : s.Spends b u where
  toStays := first.toStays.trans second.toStays
  affords n affords := second.affords n (first.affords n affords)
  replaced := by
    rcases first.replaced with lives | saves
    · refine second.replaced.imp (fun lives' id live => lives' id (lives id live)) fun saves => {
        toStays := first.toStays.trans saves.toStays
        lowers := fun n affords => saves.lowers n (first.affords n affords) }
    · exact .inr (saves.before second)

/-- Where a node was replaced, less work is left. -/
theorem saves {id : Nat} (spends : s.Spends b t) (live : s.Live id) (gone : ¬ t.Live id) : s.Saves b t :=
  spends.replaced.resolve_left fun lives => gone (lives id live)

end Spends

end Store

/-- The discipline of work that can be done with so much. -/
def Discipline.spending (b : Bounds) (n : Nat) : Discipline where
  Fits s := s.Affords b n
  Reaches s t := s.Spends b t
  refl := .refl
  trans _ _ _ := .trans
  alike _ _ alike affords := ⟨(Store.Eased.of_alike alike).affords affords,.of_eased (.of_alike alike)⟩

/-- That an action ends where the work that is left can be done with so much, and then costs no more. -/
abbrev Judgement.affordable (b : Bounds) (n : Nat) : Judgement := (Discipline.spending b n).completing

namespace Spending

open Discipline

variable {b : Bounds} {n k : Nat} {s t : Store}

/-- What ends with less, ends. -/
theorem lowered {α : Type} {a : StoreM α} (completes : (spending b k).CompletesAt s a) (le : k ≤ n) (affords : s.Affords b k) :
    Leads a s fun t => t.Affords b n ∧ s.Spends b t :=
  (completes affords).mono fun _ ends => ⟨ends.1.mono le,ends.2⟩

theorem saved {α : Type} {a : StoreM α} (leads : Leads a s fun t => s.Saves b t) : (spending b n).CompletesAt s a := fun affords =>
  leads.mono fun _ saves => ⟨saves.spends.affords n affords,saves.spends⟩

theorem requireSession_holds (id : NodeId) : (Judgement.affordable b n).Holds (requireSession id) := by
  rintro s ⟨g,graded,cost⟩
  obtain ⟨r,t,run⟩ := Upkeep.requireSession_ends graded.form id
  exact ⟨r,t,run,(Still.requireSession id).keeps s r t ⟨g,graded,cost⟩ run⟩

/-! ## Guarded work -/

/-- Guarded work saves what its work saves. -/
theorem guarded_leads {α : Type} {id : NodeId} {wrap : Text → Cause} {noted : FaultId → Node → Node} {work : StoreM α} {s₀ : Store}
    (notes : ∀ fault n, Node.Eased n (noted fault n)) (leads : Leads work (s.entered id) fun t => s₀.Saves b t) :
    Leads (Resolve.guarded id wrap (fun fault => modifyNode id (noted fault)) work) s fun t => s₀.Saves b t := by
  obtain ⟨r,u,run,saves⟩ := leads
  have handled (e : Thrown) (t : Store) : ∃ r u, Runs (do
      let fault ← asFault wrap e
      locate fault id
      modifyNode id (noted fault)
      throw (.fault fault) : StoreM α) t r u :=
    Runs.bind_ends ((Quiet.asFault wrap e).judged (J := Judgement.ending) t) fun fault t _ =>
      Runs.bind_ends ((Quiet.locate fault id).judged (J := Judgement.ending) t) fun _ t _ =>
        ⟨_,_,modifyNode_run.bind (Runs.throw_iff.mpr ⟨rfl,rfl⟩)⟩
  obtain ⟨r',v,guarded⟩ := Runs.tryCatch_ends ⟨r,u,run⟩ handled
  have entered : Runs (Resolve.enter id) s (.ok ()) (s.entered id) := rfl
  have whole : Runs (Resolve.guarded id wrap (fun fault => modifyNode id (noted fault)) work) s r' (v.left id) :=
    entered.bind (cleaningUp_run guarded)
  refine ⟨r',_,whole,?_⟩
  rcases Resolve.guarded_inv noted whole with ⟨_,w,_,worked,same⟩ | ⟨e,e',w,w',_,worked,fails,same⟩
  · obtain ⟨_,rfl⟩ := Runs.unique worked run
    rw [same]
    exact saves.eased .busy
  · obtain ⟨_,rfl⟩ := Runs.unique worked run
    rw [same]
    exact (saves.eased (.of_changed (fails.changed .refl (fun _ _ _ => .trans) notes))).eased .busy

end Spending
end ConfTree
