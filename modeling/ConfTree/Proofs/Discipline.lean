import ConfTree.Proofs.Runs

/-!
Disciplines: what every step of some work keeps. An action keeps a discipline when from each store that
fits it leaves one that fits and that the first may come to; composed actions keep what their parts keep,
so a discipline is checked where the store is written and nowhere else.
-/
namespace ConfTree

open StoreM

variable {α β : Type} {s t u : Store}

/-- The nodes and the session of two stores are the same. -/
structure Store.Alike (s t : Store) : Prop where
  nodes : t.nodes = s.nodes
  session : t.session = s.session

namespace Store.Alike

theorem refl (s : Store) : s.Alike s := ⟨rfl,rfl⟩

theorem trans (first : s.Alike t) (second : t.Alike u) : s.Alike u :=
  ⟨second.nodes.trans first.nodes,second.session.trans first.session⟩

theorem node (alike : s.Alike t) (id : NodeId) : t.node id = s.node id := by
  rw [Store.node,Store.node,alike.nodes]

theorem current (alike : s.Alike t) (id : NodeId) : t.current id = s.current id := by
  have follow (steps : Nat) (id : NodeId) : t.follow steps id = s.follow steps id := by
    induction steps generalizing id with
    | zero => rfl
    | succ steps ih => simp only [Store.follow,alike.node,ih]
  rw [Store.current,Store.current,alike.nodes,follow]

theorem name (alike : s.Alike t) (id : NodeId) : t.name id = s.name id := by
  have key (id : NodeId) : t.entryKey id = s.entryKey id := by simp only [Store.entryKey,alike.node]
  have parts (steps : Nat) (id : NodeId) : t.partsUpTo steps id = s.partsUpTo steps id := by
    induction steps generalizing id with
    | zero => rfl
    | succ steps ih => simp only [Store.partsUpTo,Store.childPartsWith,alike.node,alike.current,key,ih]
  rw [Store.name,Store.name,Store.parts,Store.parts,alike.nodes,parts]

end Store.Alike

/-- What stores have to fit, and what each may come to. Faults, identities and the counts of calls do not
matter to it. -/
structure Discipline where
  Fits : Store → Prop
  Reaches : Store → Store → Prop
  refl : ∀ s, Reaches s s
  trans : ∀ s t u, Reaches s t → Reaches t u → Reaches s u
  alike : ∀ s t, s.Alike t → Fits s → Fits t ∧ Reaches s t

/-- What the action does from a store, if that fits, keeps to the discipline. -/
def Discipline.KeepsAt (D : Discipline) (s : Store) (a : StoreM α) : Prop :=
  ∀ r t, D.Fits s → Runs a s r t → D.Fits t ∧ D.Reaches s t

/-- Whatever the action does from a store that fits keeps to the discipline. -/
def Discipline.Keeps (D : Discipline) (a : StoreM α) : Prop := ∀ s, D.KeepsAt s a

namespace Discipline.KeepsAt

variable {D : Discipline} {a : StoreM α} {f : α → StoreM β}

/-- What follows starts from a store that the first action leaves, and that this store may come to. -/
theorem followed (first : D.KeepsAt s a) (rest : ∀ v t, Runs a s (.ok v) t → D.Reaches s t → D.KeepsAt t (f v)) :
    D.KeepsAt s (a >>= f) := by
  intro r t fits run
  rcases Runs.bind_inv run with ⟨v,u,first_run,last_run⟩ | ⟨e,first_run,rfl⟩
  · obtain ⟨fits',reaches⟩ := first _ u fits first_run
    obtain ⟨fits'',further⟩ := rest v u first_run reaches r t fits' last_run
    exact ⟨fits'',D.trans _ _ _ reaches further⟩
  · exact first _ t fits first_run

theorem bind (first : D.KeepsAt s a) (rest : ∀ v, D.Keeps (f v)) : D.KeepsAt s (a >>= f) :=
  first.followed fun v t _ _ => rest v t

theorem map {g : α → β} (keeps : D.KeepsAt s a) : D.KeepsAt s (g <$> a) := by
  rw [map_eq_pure_bind]
  refine keeps.bind fun v t r u fits run => ?_
  obtain ⟨rfl,rfl⟩ := Runs.pure_iff.mp run
  exact ⟨fits,D.refl _⟩

/-- What follows an action that only reads starts from the same store. -/
theorem after {v : α} (read : Runs a s (.ok v) s) (rest : D.KeepsAt s (f v)) : D.KeepsAt s (a >>= f) :=
  fun r t fits run => rest r t fits ((Runs.bind_iff read).mp run)

end Discipline.KeepsAt

namespace Discipline.Keeps

variable {D : Discipline} {a : StoreM α} {f : α → StoreM β}

theorem pure (v : α) : D.Keeps (Pure.pure v : StoreM α) := by
  intro s r t fits run
  obtain ⟨rfl,rfl⟩ := Runs.pure_iff.mp run
  exact ⟨fits,D.refl _⟩

theorem throw (e : Thrown) : D.Keeps (throw e : StoreM α) := by
  intro s r t fits run
  obtain ⟨rfl,rfl⟩ := Runs.throw_iff.mp run
  exact ⟨fits,D.refl _⟩

theorem bind (first : D.Keeps a) (rest : ∀ v, D.Keeps (f v)) : D.Keeps (a >>= f) := fun s => (first s).bind rest

theorem map {g : α → β} (keeps : D.Keeps a) : D.Keeps (g <$> a) := by
  rw [map_eq_pure_bind]
  exact keeps.bind fun _ => pure _

theorem tryCatch {handle : Thrown → StoreM α} (keeps : D.Keeps a) (handled : ∀ e, D.Keeps (handle e)) :
    D.Keeps (tryCatch a handle) := by
  intro s r t fits run
  rcases Runs.tryCatch_inv run with ⟨v,_,first⟩ | ⟨e,u,first,last⟩
  · exact keeps s _ t fits first
  · obtain ⟨fits',reaches⟩ := keeps s _ u fits first
    obtain ⟨fits'',further⟩ := handled e u r t fits' last
    exact ⟨fits'',D.trans _ _ _ reaches further⟩

theorem forM {f : α → StoreM PUnit} (xs : List α) (keeps : ∀ x ∈ xs, D.Keeps (f x)) : D.Keeps (xs.forM f) := by
  induction xs with
  | nil => exact pure _
  | cons x rest ih =>
    rw [Runs.forM_cons]
    exact (keeps x (by simp)).bind fun _ => ih fun y member => keeps y (List.mem_cons_of_mem _ member)

theorem mapM {f : α → StoreM β} (xs : List α) (keeps : ∀ x ∈ xs, D.Keeps (f x)) : D.Keeps (xs.mapM f) := by
  induction xs with
  | nil => exact pure _
  | cons x rest ih =>
    rw [Runs.mapM_cons]
    exact (keeps x (by simp)).bind fun _ =>
      (ih fun y member => keeps y (List.mem_cons_of_mem _ member)).bind fun _ => pure _

theorem foldlM {f : β → α → StoreM β} (xs : List α) (keeps : ∀ b, ∀ x ∈ xs, D.Keeps (f b x)) (b : β) :
    D.Keeps (xs.foldlM f b) := by
  induction xs generalizing b with
  | nil => exact pure _
  | cons x rest ih =>
    rw [List.foldlM_cons]
    exact (keeps b x (by simp)).bind fun next => ih (fun b y member => keeps b y (List.mem_cons_of_mem _ member)) next

theorem unending : D.Keeps (unending : StoreM α) := fun _ _ _ _ run => absurd run Runs.unending_iff

end Discipline.Keeps

/-! ## Work that only looks -/

/-- The discipline of leaving nodes and session alone. -/
def Discipline.looking : Discipline where
  Fits _ := True
  Reaches := Store.Alike
  refl := .refl
  trans _ _ _ := .trans
  alike _ _ alike _ := ⟨trivial,alike⟩

/-- The action leaves nodes and session alone, whatever it reports or counts. -/
abbrev Still (a : StoreM α) : Prop := Discipline.looking.Keeps a

namespace Still

open Discipline

theorem of_runs {a : StoreM α} (looks : ∀ s r t, Runs a s r t → s.Alike t) : Still a := fun s r t _ run => ⟨trivial,looks s r t run⟩

/-- A discipline is kept where nothing matters to it. -/
theorem keeps {D : Discipline} {a : StoreM α} (still : Still a) : D.Keeps a := fun s r t fits run =>
  D.alike s t (still s r t trivial run).2 fits

end Still
end ConfTree
