import Mathlib.Data.List.Forall2
import ConfTree.Proofs.Overrides.Settle

/-!
Resolving trees of plain content. A tree that waits is resolved to what its content becomes under the
overrides, on the way each of its places is settled once, and what is left is a tree whose nodes are all
over with (`Finished`, `resolvable_of_becomes`).
-/
namespace ConfTree

open StoreM

variable {settings : Settings} {s t u : Store}

/-- A tree whose values are known and whose entries are modified, down to its scalars. -/
inductive Finished (s : Store) : Nat → Prop
  | scalar {x : Nat} {raw : Literal} {override : Option Literal} {v : Value} (live : (s.node x).replacedBy = none)
      (body : (s.node x).body = .scalar raw override) (value : (s.node x).resolution = .done v) : Finished s x
  | sequence {x : Nat} {items declared : List Nat} {v : Value} (live : (s.node x).replacedBy = none)
      (body : (s.node x).body = .sequence items declared true) (value : (s.node x).resolution = .done v)
      (parents : ∀ y ∈ items, (s.node y).parent = some x) (parts : ∀ y ∈ items, Finished s y) : Finished s x
  | mapping {x : Nat} {branches : List Branch} {v : Value} (live : (s.node x).replacedBy = none)
      (body : (s.node x).body = .mapping (branches.map Branch.entry) true) (value : (s.node x).resolution = .done v)
      (modified : ∀ b ∈ branches, Modified s x b) (parents : ∀ b ∈ branches, (s.node b.plot.root).parent = some b.entry)
      (parts : ∀ b ∈ branches, Finished s b.plot.root) : Finished s x

namespace Finished

variable {x : Nat} {inside : NodeId → Prop}

theorem live (finished : Finished s x) : (s.node x).replacedBy = none := by
  cases finished <;> assumption

theorem is_over (finished : Finished s x) : (s.node x).Over := by
  cases finished with
  | scalar _ body value | sequence _ body value | mapping _ body value =>
    rw [Node.Over,body]
    exact ⟨_,value⟩

/-- Nothing changes in such a tree while only nodes are changed that are still to be worked on. -/
theorem frame (finished : Finished s x) (frame : s.Frame inside t)
    (idle : ∀ id : Nat, id < s.nodes.size → inside id → ¬ (s.node id).Over) : Finished t x := by
  have same (id : Nat) (ended : (s.node id).Over) : t.node id = s.node id :=
    frame.same id (old_of_over ended) fun within => idle id (old_of_over ended) within ended
  induction finished with
  | scalar live body value =>
    have here := same _ (Finished.scalar live body value).is_over
    exact .scalar (here ▸ live) (here ▸ body) (here ▸ value)
  | sequence live body value parents parts ih =>
    have here := same _ (Finished.sequence live body value parents parts).is_over
    refine .sequence (here ▸ live) (here ▸ body) (here ▸ value) (fun y member => ?_) ih
    rw [same y (parts y member).is_over]
    exact parents y member
  | mapping live body value modified parents parts ih =>
    have here := same _ (Finished.mapping live body value modified parents parts).is_over
    refine .mapping (here ▸ live) (here ▸ body) (here ▸ value) (fun b member => ?_) (fun b member => ?_) ih
    · obtain ⟨b_live,b_parent,head,declared,evaluated,key,b_body⟩ := modified b member
      have entry := same b.entry (by rw [Node.Over,b_body])
      exact ⟨entry ▸ b_live,entry ▸ b_parent,head,declared,evaluated,key,entry ▸ b_body⟩
    · rw [same b.plot.root (parts b member).is_over]
      exact parents b member

end Finished

/-- The paths of the parts of a value that stands at a path, without the value itself. -/
def Beneath (path : List Text) (v : Value) (used : List Text) : Prop :=
  ∃ rest, rest ≠ [] ∧ used = path ++ rest ∧ (v.at? rest).isSome

/-- A path among those of a value's parts is that of a child or among those of a child's parts. -/
theorem beneath_iff {path used : List Text} {v : Value} : Beneath path v used ↔
    ∃ step part, v.child? step = some part ∧ (used = path ++ [step] ∨ Beneath (path ++ [step]) part used) := by
  constructor
  · rintro ⟨rest,more,rfl,present⟩
    obtain ⟨step,rest,rfl⟩ := List.exists_cons_of_ne_nil more
    rw [Value.at?,Option.isSome_bind] at present
    obtain ⟨part,child⟩ : ∃ part, v.child? step = some part := by
      rcases found : v.child? step with _ | part
      · rw [found] at present
        cases present
      · exact ⟨part,rfl⟩
    rw [child] at present
    refine ⟨step,part,child,?_⟩
    rcases rest with _ | ⟨next,rest⟩
    · exact .inl rfl
    · exact .inr ⟨next :: rest,by simp,by simp,present⟩
  · rintro ⟨step,part,child,rfl | ⟨rest,more,rfl,present⟩⟩
    · exact ⟨[step],by simp,rfl,by simp [Value.at?,child]⟩
    · exact ⟨step :: rest,by simp,by simp,by rw [Value.at?,child]; exact present⟩

theorem beneath_list {path used : List Text} {id : Identity} {items : List Value} : Beneath path (.list id items) used ↔
    ∃ (i : Nat) (part : Value), items[i]? = some part ∧
      (used = path ++ [.ofNat i] ∨ Beneath (path ++ [.ofNat i]) part used) := by
  rw [beneath_iff]
  constructor
  · rintro ⟨step,part,child,here⟩
    obtain ⟨i,rfl,item⟩ := Value.child?_list.mp child
    exact ⟨i,part,item,here⟩
  · rintro ⟨i,part,item,here⟩
    exact ⟨.ofNat i,part,Value.child?_list.mpr ⟨i,rfl,item⟩,here⟩

theorem beneath_mapping {path used : List Text} {id : Identity} {pairs : Pairs} (distinct : (Pairs.keys pairs).Nodup) :
    Beneath path (.mapping id pairs) used ↔ ∃ (i : Nat) (key : Text) (part : Value), pairs[i]? = some (key,part) ∧
      (used = path ++ [key] ∨ Beneath (path ++ [key]) part used) := by
  rw [beneath_iff]
  constructor
  · rintro ⟨key,part,child,here⟩
    obtain ⟨i,pair⟩ := Pairs.getElem?_of_get? (Value.child?_mapping ▸ child)
    exact ⟨i,key,part,pair,here⟩
  · rintro ⟨i,key,part,pair,here⟩
    exact ⟨key,part,Value.child?_mapping ▸ Pairs.get?_eq_of_getElem? distinct pair,here⟩

/-- The store in which the work on a node begins. -/
def Store.begun (s : Store) (x : NodeId) : Store :=
  (s.update x fun n => { n with resolution := .active }).inSession fun session => { session with busy := session.busy ++ [x] }

/-- The store in which the work on a node ends with a value. -/
def Store.ended (s : Store) (x : NodeId) (v : Value) : Store :=
  (s.update x fun n => { n with resolution := .done v }).inSession fun session =>
    { session with busy := Resolve.eraseLast session.busy x }

/-- A node that nothing was asked of is resolved by settling it and computing its value. -/
theorem resolve_of_work (host : Host) (depth : Nat) {x : Nat} {w : Value} (blank : (s.node x).Blank)
    (bound : Runs (requireSession x) s (.ok ()) s)
    (settle : Runs ((Calls.ofDepth host depth).settle x) (s.begun x) (.ok ()) t) (live : (t.node x).replacedBy = none)
    (value : Runs (Resolve.computeValue host (Calls.ofDepth host depth) x) t (.ok w) u) (untyped : (u.node x).types = none)
    (untransformed : (u.node x).transforms = []) :
    Runs ((Calls.ofDepth host (depth + 1)).resolve x) s (.ok w) (u.ended x w) := by
  have finish : Runs (Resolve.finish host (Calls.ofDepth host depth) x w) u (.ok w) u := by
    refine getNode_run.bind ?_
    rw [untransformed]
    refine (Runs.ok _ _).bind (getNode_run.bind ?_)
    rw [untyped]
    exact (Runs.ok _ _).bind (Runs.ok _ _)
  refine current_run.bind ?_
  rw [Store.current_of_live blank.live,if_neg (by simp)]
  refine getNode_run.bind ?_
  rw [blank.pending]
  refine bound.bind (modifyNode_run.bind (guarded_run (settle.bind (current_run.bind ?_))))
  rw [Store.current_of_live live,if_pos rfl]
  exact value.bind (finish.bind (modifyNode_run.bind (Runs.ok _ _)))

theorem Advance.begun {inside : NodeId → Prop} {x : Nat} (within : inside x) : Advance inside (fun _ => False) s (s.begun x) :=
  ((Advance.update within).trans (.busy fun busy => busy ++ [x]) fun _ _ here => here).mono (fun _ _ here => here) (by simp)

theorem Advance.ended {inside : NodeId → Prop} {x : Nat} (v : Value) (within : inside x) :
    Advance inside (fun _ => False) s (s.ended x v) :=
  ((Advance.update within).trans (.busy fun busy => Resolve.eraseLast busy x) fun _ _ here => here).mono
    (fun _ _ here => here) (by simp)

theorem node_begun {x : Nat} (old : x < s.nodes.size) : (s.begun x).node x = { s.node x with resolution := .active } :=
  Store.node_update_self old

theorem node_ended {x : Nat} (v : Value) (old : x < s.nodes.size) :
    (s.ended x v).node x = { s.node x with resolution := .done v } := Store.node_update_self old

/-! ## What it takes to resolve a tree, and what comes of it -/

/-- A store with settings and with overrides that put plain values in places. -/
structure Informed (settings : Settings) (replacement : List Text → Option Value) (s : Store) : Prop where
  in_settings : s.session.settings = settings
  in_overrides : Overrides.replacement s.session.overrides = replacement
  overrides_plain : ∀ o ∈ s.session.overrides, o.value.isPlain settings = true

namespace Informed

variable {replacement : List Text → Option Value} {inside : NodeId → Prop} {used : List Text → Prop}

theorem advance (informed : Informed settings replacement s) (advance : Advance inside used s t) :
    Informed settings replacement t where
  in_settings := advance.settings.trans informed.in_settings
  in_overrides := advance.counted.replacement.trans informed.in_overrides
  overrides_plain := advance.counted.values (p := fun v => v.isPlain settings = true) informed.overrides_plain

theorem plain (informed : Informed settings replacement s) {path : List Text} {v : Value} (plain : v.isPlain settings = true) :
    ((replacement path).getD v).isPlain settings = true := by
  rcases found : replacement path with _ | new
  · exact plain
  · rw [← informed.in_overrides] at found
    obtain ⟨o,member,rfl⟩ := Option.map_eq_some_iff.mp found
    exact informed.overrides_plain o (List.mem_of_find?_eq_some member)

end Informed

/-- A tree that stands at a path below the root and waits to be resolved. -/
structure Start (settings : Settings) (replacement : List Text → Option Value) (path : List Text) (level : Nat) (p : Plot)
    (s : Store) : Prop where
  planted : Planted s p
  idle : p.Idle s
  anchored : s.Anchored p.Holds p.root path level
  room : level + (p.root + 1 - p.first) ≤ s.nodes.size
  plain : p.value.isPlain settings = true
  dotless : Dotless path
  informed : Informed settings replacement s

/-- A tree that was resolved to a value with the content expected, in its place and over with. -/
structure Finish (path : List Text) (final : Value) (p : Plot) (s : Store) (w : Value) (t : Store) : Prop where
  value : w.bare = final.bare
  finished : Finished t p.root
  parent : (t.node p.root).parent = (s.node p.root).parent
  advance : Advance p.Holds (Beneath path final) s t

/-- That content at a path is resolved, in any store where it waits, to what it becomes there. -/
def Resolves (host : Host) (settings : Settings) (replacement : List Text → Option Value) (path : List Text)
    (v final : Value) (depth : Nat) : Prop :=
  ∀ p s level, p.value = v → Start settings replacement path level p s →
    ∃ w t, Runs ((Calls.ofDepth host depth).resolve p.root) s (.ok w) t ∧ Finish path final p s w t

/-- That it is resolved so whenever references may go deep enough. -/
def Resolvable (host : Host) (settings : Settings) (replacement : List Text → Option Value) (path : List Text)
    (v final : Value) : Prop :=
  ∃ bound, ∀ depth, bound ≤ depth → Resolves host settings replacement path v final depth

namespace Start

variable {replacement : List Text → Option Value} {path : List Text} {level : Nat} {p : Plot}

theorem root_holds (start : Start settings replacement path level p s) : p.Holds p.root :=
  ⟨start.planted.least,Nat.le_refl _⟩

theorem bound (start : Start settings replacement path level p s) : Runs (requireSession p.root) s (.ok ()) s := by
  have room := start.room
  exact (start.anchored s (.refl _ _) rfl rfl start.planted.blank.live).requireSession_run (by omega)

/-- Work on the root begins with all that matters as it was. -/
theorem begun_located (start : Start settings replacement path level p s) : (s.begun p.root).Located p.root path level := by
  have after := node_begun start.planted.old
  refine start.anchored _ (Advance.begun start.root_holds).toFrame ?_ ?_ ?_
  all_goals rw [after]
  exact start.planted.blank.live

end Start

theorem classify_literal {t : Text} (literal : settings.isLiteral t = true) : Resolve.classify settings t = .inl t := by
  obtain ⟨no_mark,no_escape⟩ : t.startsWith settings.interpolationPrefix = false ∧
      t.startsWith (settings.escapePrefix ++ settings.interpolationPrefix) = false := by
    simpa [Settings.isLiteral] using literal
  rw [Resolve.classify,no_mark,no_escape]
  rfl

/-- A scalar that is no expression stands for itself. -/
private theorem literal_run (host : Host) (depth : Nat) {x level : Nat} {path : List Text} {w : Value} {literal : Literal}
    (content : w.literal? = some literal) (plain : w.isPlain settings = true) (located : s.Located x path level)
    (room : level ≤ s.nodes.size) (in_settings : s.session.settings = settings) :
    Runs (match literal with
      | .text t => do
        requireSession x
        match Resolve.classify (← getSession).settings t with
        | .inl literal => return .text literal
        | .inr source =>
          match ← Expression.evaluate host (Calls.ofDepth host depth) source (← Expression.locals x) with
          | .object (.node target _) => (Calls.ofDepth host depth).resolve target
          | v => return v
      | literal => return literal.value) s (.ok w) s := by
  cases w with
  | text t =>
    obtain rfl : .text t = literal := Option.some.inj content
    refine (located.requireSession_run room).bind (getSession_run.bind ?_)
    rw [in_settings,classify_literal plain]
    exact Runs.ok _ _
  | null | bool =>
    obtain rfl := Option.some.inj content
    exact Runs.ok _ _
  | number n =>
    by_cases finite : n.isFinite
    · obtain rfl : .number n = literal := by simpa [Value.literal?,finite] using content
      exact Runs.ok _ _
    · simp [Value.literal?,finite] at content
  | _ => cases content

/-- A scalar that waits is resolved to its value, and only it changes. -/
theorem scalar_run (host : Host) (depth : Nat) {replacement : List Text → Option Value} {path : List Text} {level : Nat} {p : Plot}
    (start : Start settings replacement path level p s) (native : p.value.isNativeScalar = true) :
    ∃ raw override, (s.node p.root).body = .scalar raw override ∧
      Runs ((Calls.ofDepth host (depth + 2)).resolve p.root) s (.ok p.value) ((s.begun p.root).ended p.root p.value) := by
  have planted := start.planted
  have located := start.begun_located
  have plain := start.plain
  have after := node_begun planted.old
  have room : level ≤ (s.begun p.root).nodes.size := by
    have := start.room
    have size : (s.begun p.root).nodes.size = s.nodes.size := by simp [Store.begun]
    omega
  have in_settings := start.informed.in_settings
  cases planted with
  | list | mapping => cases native
  | @scalar id w raw override old blank body literal =>
    refine ⟨raw,override,body,?_⟩
    have settle : Runs ((Calls.ofDepth host (depth + 1)).settle id) (s.begun id) (.ok ()) (s.begun id) := by
      refine getNode_run.bind ?_
      rw [after,body]
      exact Runs.ok _ _
    have value : Runs (Resolve.computeValue host (Calls.ofDepth host (depth + 1)) id) (s.begun id) (.ok w) (s.begun id) := by
      refine getNode_run.bind ?_
      rw [after,body]
      refine getNode_run.bind ?_
      rw [after,blank.optional]
      simp only [Bool.false_and,Bool.false_eq_true,if_false]
      exact literal_run host (depth + 1) literal plain located room in_settings
    exact resolve_of_work host (depth + 1) blank start.bound settle (by rw [after]; exact blank.live) value
      (by rw [after]; exact blank.untyped) (by rw [after]; exact blank.untransformed)

theorem resolvable_scalar (host : Host) {replacement : List Text → Option Value} {path : List Text} {v : Value}
    (native : v.isNativeScalar = true) : Resolvable host settings replacement path v v := by
  refine ⟨2,fun depth deep p s level content start => ?_⟩
  obtain ⟨depth,rfl⟩ : ∃ n, depth = n + 2 := ⟨depth - 2,by omega⟩
  subst content
  obtain ⟨raw,override,body,run⟩ := scalar_run host depth start native
  have old : p.root < (s.begun p.root).nodes.size := by simpa [Store.begun] using start.planted.old
  have after : ((s.begun p.root).ended p.root p.value).node p.root = { s.node p.root with resolution := .done p.value } := by
    rw [node_ended _ old,node_begun start.planted.old]
  refine ⟨p.value,_,run,rfl,?finished,by rw [after],?advance⟩
  case finished =>
    refine @Finished.scalar _ p.root raw override p.value ?_ ?_ ?_
    all_goals rw [after]
    · exact start.planted.blank.live
    · exact body
  case advance =>
    refine ((Advance.begun start.root_holds).trans (Advance.ended p.value start.root_holds) fun _ _ here => here).mono
      (fun _ _ here => here) fun used => ?_
    simp only [or_self,false_iff]
    rintro ⟨rest,more,_,present⟩
    obtain ⟨step,rest,rfl⟩ := List.exists_cons_of_ne_nil more
    cases value : p.value with
    | list | mapping => simp [value,Value.isNativeScalar] at native
    | _ => simp [value,Value.at?,Value.child?] at present

/-! ## The parts of a tree -/

/-- A branch that is to be resolved, with the nodes that may change on the way and the paths whose overrides are used. -/
structure Site extends Branch where
  inside : Nat → Prop
  used : List Text → Prop

namespace Site

/-- The tree in a place waits for work on it. -/
structure Waits (s : Store) (p : Site) : Prop where
  root : p.inside p.plot.root
  old : ∀ id : Nat, p.inside id → id < s.nodes.size
  idle : ∀ id : Nat, p.inside id → ¬ (s.node id).Over
  live : (s.node p.plot.root).replacedBy = none
  shown : (s.node p.plot.root).isHidden = false
  parent : (s.node p.plot.root).parent = some p.entry

/-- From the store `s₁` on, while nodes change around a place but not inside, resolving what stands in it gives a value with
the content expected. -/
def Yields (host : Host) (settings : Settings) (replacement : List Text → Option Value) (final : Value) (depth : Nat)
    (around : Nat → Prop) (s₁ : Store) (p : Site) : Prop :=
  ∀ s, s₁.Frame around s → (∀ id, p.inside id → s.node id = s₁.node id) → Informed settings replacement s →
    ∃ w t, Runs ((Calls.ofDepth host depth).resolve p.plot.root) s (.ok w) t ∧ w.bare = final.bare ∧ Finished t p.plot.root ∧
      (t.node p.plot.root).parent = (s.node p.plot.root).parent ∧ Advance p.inside p.used s t

end Site

/-- That a node may change when one of some places is worked on. -/
def Around (sites : List Site) (id : Nat) : Prop := ∃ p ∈ sites, p.inside id

/-- The trees that stand in the places of a settled container, some of them resolved and the others waiting,
since the store `s₁` in which it was settled. -/
structure Parts (s₁ : Store) (done rest : List Site) (s : Store) : Prop where
  frame : s₁.Frame (Around (done ++ rest)) s
  finished : ∀ p ∈ done, Finished s p.plot.root ∧ (s.node p.plot.root).parent = some p.entry
  waits : ∀ p ∈ rest, p.Waits s₁
  same : ∀ p ∈ rest, ∀ id, p.inside id → s.node id = s₁.node id
  apart : (done ++ rest).Pairwise fun p q => ∀ id, p.inside id → ¬ q.inside id

namespace Parts

variable {s₁ : Store} {replacement : List Text → Option Value} {depth : Nat} {done rest : List Site} {p : Site} {final : Value}

/-- The trees beside one that is resolved stay as they are. -/
theorem advance (parts : Parts s₁ done (p :: rest) s) (frame : s.Frame p.inside t) (finished : Finished t p.plot.root)
    (parent : (t.node p.plot.root).parent = some p.entry) : Parts s₁ (done ++ [p]) rest t where
  frame := by
    rw [List.append_assoc,List.singleton_append]
    exact parts.frame.followed frame fun id _ here => ⟨p,by simp,here⟩
  finished q member := by
    rcases List.mem_append.mp member with before | here
    · obtain ⟨finished,place⟩ := parts.finished q before
      have idle (id : Nat) (within : p.inside id) : ¬ (s.node id).Over := by
        rw [parts.same p (by simp) id within]
        exact (parts.waits p (by simp)).idle id within
      refine ⟨finished.frame frame fun id _ => idle id,?_⟩
      rw [frame.same _ (old_of_over finished.is_over) fun within => idle _ within finished.is_over]
      exact place
    · exact (List.mem_singleton.mp here) ▸ ⟨finished,parent⟩
  waits q member := parts.waits q (List.mem_cons_of_mem _ member)
  same q member id within := by
    have later := List.mem_cons_of_mem p member
    have old := (parts.waits q later).old id within
    have grows := parts.frame.grows
    rw [frame.same id (by omega) fun here => ?_,parts.same q later id within]
    exact (List.pairwise_cons.mp (List.pairwise_append.mp parts.apart).2.1).1 q member id here within
  apart := by simpa using parts.apart

theorem resolve_run (parts : Parts s₁ done (p :: rest) s) (informed : Informed settings replacement s) (host : Host)
    (yields : p.Yields host settings replacement final depth (Around (done ++ p :: rest)) s₁) :
    ∃ w t, Runs ((Calls.ofDepth host depth).resolve p.plot.root) s (.ok w) t ∧ w.bare = final.bare ∧
      Parts s₁ (done ++ [p]) rest t ∧ Advance p.inside p.used s t := by
  have waits := parts.waits p (by simp)
  obtain ⟨w,t,run,value,finished,parent,advance⟩ := yields s parts.frame (parts.same p (by simp)) informed
  refine ⟨w,t,run,value,parts.advance advance.toFrame finished ?_,advance⟩
  rw [parent,parts.same p (by simp) _ waits.root]
  exact waits.parent

/-- Resolving one tree after another gives their values. -/
theorem resolveAll_run (host : Host) {all : List Site} {finals : List Value}
    (yields : List.Forall₂ (fun p final => p.Yields host settings replacement final depth (Around all) s₁) rest finals)
    (parts : Parts s₁ done rest s) (whole : done ++ rest = all) (informed : Informed settings replacement s) :
    ∃ ws t, Runs ((rest.map fun p => p.plot.root).mapM (Calls.ofDepth host depth).resolve) s (.ok ws) t ∧
      ws.map Value.bare = finals.map Value.bare ∧ Parts s₁ all [] t ∧ Advance (Around all) (fun used => ∃ p ∈ rest, p.used used) s t := by
  induction yields generalizing done s with
  | nil =>
    obtain rfl : done = all := by simpa using whole
    exact ⟨[],s,Runs.ok _ _,rfl,parts,(Advance.refl _ s).mono (fun _ _ within => within) (by simp)⟩
  | @cons p final rest finals here _ ih =>
    obtain ⟨w,t,run,value,further,advance⟩ := parts.resolve_run informed host (whole ▸ here)
    obtain ⟨ws,u,runs,values,last,advances⟩ := ih further (by simpa using whole) (informed.advance advance)
    refine ⟨w :: ws,u,?_,by simp [value,values],last,?_⟩
    · rw [List.map_cons,Runs.mapM_cons]
      exact run.bind (runs.bind (Runs.ok _ _))
    · refine ((advance.mono (fun id _ within => ⟨p,by simp [← whole],within⟩) fun _ => Iff.rfl).trans advances fun id _ within => within).mono
        (fun _ _ within => within) fun used => ?_
      simp

end Parts

/-- A tree that waits, as a place. -/
theorem Ready.waits {b : Branch} (ready : Ready s b.entry b.plot) (used : List Text → Prop) : Site.Waits s ⟨b,b.plot.Holds,used⟩ where
  root := ⟨ready.planted.least,Nat.le_refl _⟩
  old _ holds := Nat.lt_of_le_of_lt holds.2 ready.planted.old
  idle := ready.idle
  live := ready.planted.blank.live
  shown := ready.planted.blank.shown
  parent := ready.parent

/-- A tree that waits is resolved to what its content becomes, as long as it stays where it is whatever becomes of the places around. -/
theorem Ready.yields {s₁ : Store} {replacement : List Text → Option Value} {path : List Text} {level depth : Nat} {b : Branch} {final : Value}
    {around : Nat → Prop} (ready : Ready s₁ b.entry b.plot) (host : Host)
    (resolves : Resolves host settings replacement path b.plot.value final depth)
    (room : level + (b.plot.root + 1 - b.plot.first) ≤ s₁.nodes.size) (plain : b.plot.value.isPlain settings = true) (dotless : Dotless path)
    (anchored : ∀ s, s₁.Frame around s → (s.node b.plot.root).parent = some b.entry → s.Anchored b.plot.Holds b.plot.root path level) :
    Site.Yields host settings replacement final depth around s₁ ⟨b,b.plot.Holds,Beneath path final⟩ := by
  intro s frame same informed
  obtain ⟨planted,idle,parent⟩ := ready
  obtain ⟨w,t,run,finish⟩ := resolves b.plot s level rfl {
    planted := planted.frame frame.grows same
    idle := fun id holds => by rw [same id holds]; exact idle id holds
    anchored := anchored s frame (by rw [same b.plot.root ⟨planted.least,Nat.le_refl _⟩]; exact parent)
    room := Nat.le_trans room frame.grows
    plain := plain
    dotless := dotless
    informed := informed }
  exact ⟨w,t,run,finish.value,finish.finished,finish.parent,finish.advance⟩

/-- The places below a path in which planted trees stand, as long as nodes change only inside of these. -/
structure Standing (settings : Settings) (path : List Text) (level : Nat) (branches : List Branch) (s₁ : Store) : Prop where
  locate : ∀ t, s₁.Frame (fun id => ∃ b ∈ branches, b.plot.Holds id) t → ∀ b ∈ branches, (t.node b.plot.root).replacedBy = none →
    (t.node b.plot.root).parent = some b.entry → t.Located b.plot.root (path ++ [b.key]) level
  room : ∀ b ∈ branches, level + (b.plot.root + 1 - b.plot.first) ≤ s₁.nodes.size
  plain : ∀ b ∈ branches, b.plot.value.isPlain settings = true
  dotless : ∀ b ∈ branches, Dotless (path ++ [b.key])

/-- The places of planted trees, each to be resolved to what is expected of it. -/
def sites (path : List Text) (branches : List Branch) (finals : List Value) : List Site :=
  (branches.zip finals).map fun p => ⟨p.1,p.1.plot.Holds,Beneath (path ++ [p.1.key]) p.2⟩

namespace Standing

variable {s₁ : Store} {replacement : List Text → Option Value} {path : List Text} {level depth : Nat} {branches : List Branch}
  {finals : List Value} {b : Branch} {final : Value}

/-- A planted tree can be resolved in its place, whatever becomes of the other ones. -/
theorem yields (standing : Standing settings path level branches s₁) (member : b ∈ branches) (ready : Ready s₁ b.entry b.plot)
    (host : Host) (resolves : Resolves host settings replacement (path ++ [b.key]) b.plot.value final depth) :
    Site.Yields host settings replacement final depth (fun id => ∃ b ∈ branches, b.plot.Holds id) s₁
      ⟨b,b.plot.Holds,Beneath (path ++ [b.key]) final⟩ := by
  refine ready.yields host resolves (standing.room b member) (standing.plain b member) (standing.dotless b member)
    fun s frame parent t further above _ live => ?_
  exact standing.locate t (frame.followed further fun id _ here => ⟨b,member,here⟩) b member live (above.trans parent)

/-- The trees in all places wait to be resolved. -/
theorem parts (sizes : branches.length = finals.length) (ready : ∀ b ∈ branches, Ready s₁ b.entry b.plot)
    (apart : branches.Pairwise fun b c => b.plot.Apart c.plot) : Parts s₁ [] (sites path branches finals) s₁ where
  frame := .refl _ s₁
  finished := by simp
  waits p member := by
    obtain ⟨⟨b,final⟩,among,rfl⟩ := List.mem_map.mp member
    exact (ready b (List.of_mem_zip among).1).waits _
  same _ _ _ _ := rfl
  apart := by
    rw [← List.map_fst_zip (Nat.le_of_eq sizes),List.pairwise_map] at apart
    rw [List.nil_append,sites,List.pairwise_map]
    refine apart.imp fun {p q} apart id here there => ?_
    obtain ⟨lower,upper⟩ : p.1.plot.first ≤ id ∧ id ≤ p.1.plot.root := here
    obtain ⟨lower',upper'⟩ : q.1.plot.first ≤ id ∧ id ≤ q.1.plot.root := there
    rcases apart with left | right
    · omega
    · omega

theorem branches_sites (path : List Text) (sizes : branches.length = finals.length) : (sites path branches finals).map Site.toBranch = branches := by
  rw [sites,List.map_map]
  exact List.map_fst_zip (Nat.le_of_eq sizes)

theorem around_sites (sizes : branches.length = finals.length) :
    Around (sites path branches finals) = fun id => ∃ b ∈ branches, b.plot.Holds id := by
  funext id
  refine propext ⟨?_,?_⟩
  · rintro ⟨p,member,within⟩
    obtain ⟨⟨b,final⟩,among,rfl⟩ := List.mem_map.mp member
    exact ⟨b,(List.of_mem_zip among).1,within⟩
  · rintro ⟨b,member,within⟩
    rw [← branches_sites path sizes] at member
    obtain ⟨p,among,rfl⟩ := List.mem_map.mp member
    obtain ⟨⟨b,final⟩,_,rfl⟩ := List.mem_map.mp among
    exact ⟨_,among,within⟩

theorem used_sites {used : List Text} : (∃ p ∈ sites path branches finals, p.used used) ↔
    ∃ p ∈ branches.zip finals, Beneath (path ++ [p.1.key]) p.2 used := by
  simp [sites]

/-- Each of the trees is resolved to what is expected of it. -/
theorem yieldsAll (standing : Standing settings path level branches s₁) (ready : ∀ b ∈ branches, Ready s₁ b.entry b.plot) (host : Host)
    (resolves : List.Forall₂ (fun b final => Resolves host settings replacement (path ++ [b.key]) b.plot.value final depth) branches finals) :
    List.Forall₂ (fun p final => Site.Yields host settings replacement final depth (Around (sites path branches finals)) s₁ p)
      (sites path branches finals) finals := by
  have sizes := resolves.length_eq
  rw [around_sites sizes]
  refine List.forall₂_iff_get.mpr ⟨by simp [sites,sizes],fun i inside inside' => ?_⟩
  have among : i < branches.length := by omega
  have here := (List.forall₂_iff_get.mp resolves).2 i among inside'
  simp only [sites,List.get_eq_getElem,List.getElem_map,List.getElem_zip] at here ⊢
  exact standing.yields (List.getElem_mem among) (ready _ (List.getElem_mem among)) host here

theorem resolveAll_run (standing : Standing settings path level branches s) (ready : ∀ b ∈ branches, Ready s b.entry b.plot)
    (apart : branches.Pairwise fun b c => b.plot.Apart c.plot) (host : Host)
    (resolves : List.Forall₂ (fun b final => Resolves host settings replacement (path ++ [b.key]) b.plot.value final depth) branches finals)
    (informed : Informed settings replacement s) :
    ∃ ws t, Runs ((branches.map fun b => b.plot.root).mapM (Calls.ofDepth host depth).resolve) s (.ok ws) t ∧
      ws.map Value.bare = finals.map Value.bare ∧ Parts s (sites path branches finals) [] t ∧
      Advance (fun id => ∃ b ∈ branches, b.plot.Holds id) (fun used => ∃ p ∈ branches.zip finals, Beneath (path ++ [p.1.key]) p.2 used) s t := by
  have sizes := resolves.length_eq
  obtain ⟨ws,t,run,bares,last,advance⟩ := Parts.resolveAll_run host (standing.yieldsAll ready host resolves)
    (parts sizes ready apart) (List.nil_append _) informed
  have roots : (sites path branches finals).map (fun p => p.plot.root) = branches.map fun b => b.plot.root := by
    conv_rhs => rw [← branches_sites path sizes,List.map_map]
    rfl
  refine ⟨ws,t,roots ▸ run,bares,last,?_⟩
  rw [around_sites sizes] at advance
  exact advance.mono (fun _ _ within => within) fun _ => used_sites

end Standing

/-! ## Containers and sequences -/

/-- The store in which the work on a container ends with the value that was put together. -/
def Store.closed (s : Store) (x : NodeId) (w : Value) : Store := (s.issued 1).ended x w

theorem Advance.closed {x : Nat} (w : Value) : Advance (· = x) (fun _ => False) s (s.closed x w) :=
  ((Advance.of_same Store.nodes_issued Store.session_issued).trans
    (show Advance (· = x) (fun _ => False) (s.issued 1) _ from .ended w rfl) fun _ _ within => within).mono
    (fun _ _ within => within) (by simp)

theorem node_closed {x : Nat} (w : Value) (old : x < s.nodes.size) :
    (s.closed x w).node x = { s.node x with resolution := .done w } := node_ended (s := s.issued 1) w old

/-- A container that is worked on. -/
structure Worked (s : Store) (x : Nat) : Prop where
  active : (s.node x).resolution = .active
  container : s.kind x ≠ .entry

theorem Worked.idle {x : Nat} (worked : Worked s x) : ¬ (s.node x).Over := by
  obtain ⟨active,container⟩ := worked
  cases body : (s.node x).body with
  | entry => exact absurd (by rw [Store.kind,Node.kind,body]; rfl) container
  | _ =>
    rw [Node.Over,body,active]
    rintro ⟨v,done⟩
    cases done

/-- The trees in the places of a container stay as they are when its work ends. -/
theorem Parts.closed {s₁ : Store} {done : List Site} {x : Nat} (parts : Parts s₁ done [] s) (worked : Worked s x) (w : Value)
    {b : Branch} (member : b ∈ done.map Site.toBranch) : Finished (s.closed x w) b.plot.root ∧
      ((s.closed x w).node b.plot.root).parent = some b.entry := by
  obtain ⟨p,among,rfl⟩ := List.mem_map.mp member
  have frame := (Advance.closed (s := s) (x := x) w).toFrame
  have idle (id : Nat) (same : id = x) : ¬ (s.node id).Over := same ▸ worked.idle
  obtain ⟨finished,parent⟩ := parts.finished p among
  refine ⟨finished.frame frame fun id _ => idle id,?_⟩
  rw [frame.same _ (old_of_over finished.is_over) fun same => idle _ same finished.is_over]
  exact parent

theorem exists_bound {P : Nat → Nat → Prop} (count : Nat) (each : ∀ i < count, ∃ bound, ∀ depth, bound ≤ depth → P i depth) :
    ∃ bound, ∀ depth, bound ≤ depth → ∀ i < count, P i depth := by
  induction count with
  | zero => exact ⟨0,fun _ _ i impossible => absurd impossible (Nat.not_lt_zero i)⟩
  | succ count ih =>
    obtain ⟨bound,before⟩ := ih fun i small => each i (Nat.lt_succ_of_lt small)
    obtain ⟨last_bound,last⟩ := each count (Nat.lt_succ_self count)
    refine ⟨max bound last_bound,fun depth deep i small => ?_⟩
    rcases Nat.lt_succ_iff_lt_or_eq.mp small with smaller | rfl
    · exact before depth (by omega) i smaller
    · exact last depth (by omega)

namespace Items

variable {s₀ : Store} {first x level : Nat} {path : List Text} {declared : List Nat} {parts : List Plot}

/-- As settling begins, the places hold what was built. -/
theorem begun {v : Value} (old : x < s.nodes.size) (least : first ≤ x)
    (within : ∀ p ∈ parts, first ≤ p.first ∧ p.root < x) (apart : parts.Pairwise fun p q => p.root < q.first)
    (parents : ∀ p ∈ parts, (s.node p.root).parent = some x) (planted : ∀ p ∈ parts, Planted s p)
    (idle : Plot.Idle ⟨first,x,v⟩ s) :
    Items s first x declared parts ((s.begun x).update x fun n => { n with body := .sequence (parts.map Plot.root) declared true }) := by
  have size : (s.begun x).nodes.size = s.nodes.size := by simp [Store.begun]
  have frame : s.Frame (· = x) ((s.begun x).update x fun n => { n with body := .sequence (parts.map Plot.root) declared true }) :=
    (show Advance (· = x) (fun _ => False) s _ from .begun rfl).toFrame.trans (.update rfl)
  refine ⟨least,old,frame.mono fun id _ here => ⟨here ▸ least,Nat.le_of_eq here⟩,?_,fun p member => ?_,
    fun p member => .inl (within p member),apart.imp .inl⟩
  · rw [Store.node_update_self (by omega),node_begun old]
  · obtain ⟨lower,upper⟩ := within p member
    have ready : Ready s x p := ⟨planted p member,fun id holds =>
      idle id ⟨Nat.le_trans lower holds.1,Nat.le_trans holds.2 (Nat.le_of_lt upper)⟩,parents p member⟩
    exact ready.frame frame fun id holds same => Nat.not_le.mpr upper (same ▸ holds.2)

/-- The items of a sequence, each under its index. -/
def branches (x : Nat) (parts : List Plot) : List Branch := parts.mapIdx fun i p => ⟨.ofNat i,x,p⟩

theorem plots_branches (x : Nat) (parts : List Plot) : (branches x parts).map Branch.plot = parts := by
  refine List.ext_getElem? fun i => ?_
  simp [branches,Option.map_map,Function.comp_def]

theorem roots_branches : (branches x parts).map (fun b => b.plot.root) = parts.map Plot.root := by
  have same := congrArg (List.map Plot.root) (plots_branches x parts)
  rwa [List.map_map] at same

/-- The trees in the places wait, apart from each other. -/
theorem waiting (items : Items s₀ first x declared parts s) : (∀ b ∈ branches x parts, Ready s b.entry b.plot) ∧
    (branches x parts).Pairwise fun b c => b.plot.Apart c.plot := by
  refine ⟨fun b member => ?_,?_⟩
  · obtain ⟨i,inside,rfl⟩ := List.mem_mapIdx.mp member
    exact items.ready _ (List.getElem_mem inside)
  · have apart := items.apart
    rw [← plots_branches x parts] at apart
    exact List.pairwise_map.mp apart

/-- All the items are there and show. -/
theorem shown (items : Items s₀ first x declared parts s) :
    (((parts.map Plot.root).map s.current).filter fun item => !(s.node item).isHidden) = parts.map Plot.root := by
  have blank (id : Nat) (member : id ∈ parts.map Plot.root) : (s.node id).Blank := by
    obtain ⟨p,among,rfl⟩ := List.mem_map.mp member
    exact (items.ready p among).planted.blank
  have same : (parts.map Plot.root).map s.current = parts.map Plot.root :=
    (List.map_congr_left fun id member => Store.current_of_live (blank id member).live).trans (List.map_id _)
  rw [same]
  exact List.filter_eq_self.mpr fun id member => by rw [(blank id member).shown]; rfl

/-- What a tree in a place holds is not the sequence, and lies in its stretch or is new. -/
theorem inner (items : Items s₀ first x declared parts s) {id : Nat} (here : ∃ b ∈ branches x parts, b.plot.Holds id) :
    id ≠ x ∧ (Stretch first x id ∨ s₀.nodes.size ≤ id) := by
  obtain ⟨b,among,holds⟩ := here
  obtain ⟨i,inside,rfl⟩ := List.mem_mapIdx.mp among
  have member := List.getElem_mem inside
  refine ⟨fun same => items.not_above member (same ▸ holds),?_⟩
  rcases items.below _ member with ⟨least,last⟩ | new
  · exact .inl ⟨Nat.le_trans least holds.1,Nat.le_trans holds.2 (Nat.le_of_lt last)⟩
  · exact .inr (Nat.le_trans new holds.1)

/-- The places of the items and the paths beneath them are those beneath the sequence. -/
theorem used_iff (x : Nat) {finals : List Value} {id : Identity} {used : List Text} (size : parts.length = finals.length) :
    ((∃ i < parts.length, used = path ++ [.ofNat i]) ∨
      ∃ p ∈ (branches x parts).zip finals, Beneath (path ++ [p.1.key]) p.2 used) ↔ Beneath path (.list id finals) used := by
  rw [beneath_list]
  constructor
  · rintro (⟨i,inside,rfl⟩ | ⟨⟨b,final⟩,member,here⟩)
    · exact ⟨i,_,List.getElem?_eq_getElem (size ▸ inside),.inl rfl⟩
    · obtain ⟨i,pair⟩ := List.getElem?_of_mem member
      obtain ⟨left,right⟩ := List.getElem?_zip_eq_some.mp pair
      obtain ⟨p,_,rfl⟩ : ∃ p, parts[i]? = some p ∧ ⟨.ofNat i,x,p⟩ = b := by simpa [branches] using left
      exact ⟨i,final,right,.inr here⟩
  · rintro ⟨i,final,item,rfl | here⟩
    · exact .inl ⟨i,by have := (List.getElem?_eq_some_iff.mp item).1; omega,rfl⟩
    · have inside : i < parts.length := by have := (List.getElem?_eq_some_iff.mp item).1; omega
      refine .inr ⟨(⟨.ofNat i,x,parts[i]⟩,final),List.mem_of_getElem? (List.getElem?_zip_eq_some.mpr ⟨?_,item⟩),here⟩
      simp [branches,inside]

theorem standing (items : Items s₀ first x declared parts s) (anchored : s₀.Anchored (Stretch first x) x path level)
    (blank : (s₀.node x).Blank) (room : level + (x + 1 - first) ≤ s₀.nodes.size) (dotless : Dotless path)
    (plain : ∀ p ∈ parts, p.value.isPlain settings = true) :
    Standing settings path (level + 1) (branches x parts) s where
  locate t frame b member live parent := by
    obtain ⟨i,inside,rfl⟩ := List.mem_mapIdx.mp member
    have grows := items.frame.grows
    have x_old := items.x_old
    have same : t.node x = s.node x := frame.same x (by omega) fun here => (items.inner here).1 rfl
    have above : t.Located x path level := by
      refine anchored t (items.frame.followed frame fun id old here =>
        (items.inner here).2.resolve_right (Nat.not_le.mpr old)) ?_ ?_ ?_
      all_goals rw [same,items.node]
      exact blank.live
    have split : parts.take i ++ parts[i] :: parts.drop (i + 1) = parts := by
      rw [List.getElem_cons_drop,List.take_append_drop]
    have split_items : Items s₀ first x declared (parts.take i ++ parts[i] :: parts.drop (i + 1)) s := by
      rw [split]
      exact items
    have fresh : parts[i].root ∉ (parts.take i).map Plot.root := split_items.fresh
    have index := idxOf?_append_cons ((parts.drop (i + 1)).map Plot.root) fresh
    rw [← List.map_cons,← List.map_append,split,List.length_map,List.length_take,Nat.min_eq_left (Nat.le_of_lt inside)] at index
    exact above.item (by rw [same,items.node]) index live parent
  room b member := by
    obtain ⟨i,inside,rfl⟩ := List.mem_mapIdx.mp member
    have grows := items.frame.grows
    have first_le := items.first_le
    have least := (items.ready _ (List.getElem_mem inside)).planted.least
    have old := (items.ready _ (List.getElem_mem inside)).planted.old
    show level + 1 + (parts[i].root + 1 - parts[i].first) ≤ s.nodes.size
    rcases items.below _ (List.getElem_mem inside) with ⟨lower,upper⟩ | new
    · omega
    · omega
  plain b member := by
    obtain ⟨i,inside,rfl⟩ := List.mem_mapIdx.mp member
    exact plain _ (List.getElem_mem inside)
  dotless b member := by
    obtain ⟨i,inside,rfl⟩ := List.mem_mapIdx.mp member
    exact dotless.append (ofNat_dotless i)

end Items

/-- Settling a sequence puts the replacement for each item in its place. -/
theorem settleSequence_run (host : Host) (depth : Nat) {replacement : List Text → Option Value} {path : List Text}
    {first x level : Nat} {v : Value} {parts : List Plot} (start : Start settings replacement path level ⟨first,x,v⟩ s)
    (body : (s.node x).body = .sequence (parts.map Plot.root) (parts.map Plot.root) false)
    (within : ∀ p ∈ parts, first ≤ p.first ∧ p.root < x) (apart : parts.Pairwise fun p q => p.root < q.first)
    (parents : ∀ p ∈ parts, (s.node p.root).parent = some x) (planted : ∀ p ∈ parts, Planted s p) :
    ∃ (t : Store) (parts' : List Plot), Runs ((Calls.ofDepth host (depth + 1)).settle x) (s.begun x) (.ok ()) t ∧
      Items s first x (parts.map Plot.root) parts' t ∧
      parts'.map Plot.value = parts.mapIdx (fun i p => (replacement (path ++ [.ofNat i])).getD p.value) ∧
      Advance (Stretch first x) (fun used => ∃ i < parts.length, used = path ++ [.ofNat i]) s t := by
  have least : first ≤ x := start.planted.least
  have old : x < s.nodes.size := start.planted.old
  have room : level + (x + 1 - first) ≤ s.nodes.size := start.room
  have begun : Items s first x (parts.map Plot.root) parts ((s.begun x).update x
      fun n => { n with body := .sequence (parts.map Plot.root) (parts.map Plot.root) true }) :=
    .begun old least within apart parents planted start.idle
  have begin_advance : Advance (Stretch first x) (fun _ => False) s ((s.begun x).update x
      fun n => { n with body := .sequence (parts.map Plot.root) (parts.map Plot.root) true }) :=
    ((Advance.begun ⟨least,Nat.le_refl _⟩).trans (.update ⟨least,Nat.le_refl _⟩) fun _ _ here => here).mono
      (fun _ _ here => here) (by simp)
  have informed := start.informed.advance begin_advance
  obtain ⟨t,parts',run,items,values,advance⟩ := settleItems_run start.anchored start.planted.blank (by omega) start.dotless
    parts [] begun informed.overrides_plain
  rw [informed.in_overrides] at values
  refine ⟨t,parts',?_,items,by simpa using values,?_⟩
  · refine getNode_run.bind ?_
    rw [node_begun old,body]
    exact modifyNode_run.bind run
  · exact (begin_advance.trans advance fun id old here => here.resolve_right (Nat.not_le.mpr old)).mono
      (fun _ _ here => here) (by simp)

/-- A sequence is resolved when its items are, whatever replaces them. -/
theorem resolvable_list (host : Host) {replacement : List Text → Option Value} {path : List Text} {a b : Identity}
    {values finals : List Value} (sizes : values.length = finals.length)
    (each : ∀ (i : Nat) v final, values[i]? = some v → finals[i]? = some final →
      Resolvable host settings replacement (path ++ [.ofNat i]) ((replacement (path ++ [.ofNat i])).getD v) final) :
    Resolvable host settings replacement path (.list a values) (.list b finals) := by
  obtain ⟨bound,resolves⟩ := exists_bound (P := fun i depth => ∀ v final, values[i]? = some v → finals[i]? = some final →
      Resolves host settings replacement (path ++ [.ofNat i]) ((replacement (path ++ [.ofNat i])).getD v) final depth)
    values.length fun i inside => by
      obtain ⟨bound,resolves⟩ := each i values[i] finals[i] (by simp) (by simp)
      refine ⟨bound,fun depth deep v final item last => ?_⟩
      obtain ⟨_,rfl⟩ := List.getElem?_eq_some_iff.mp item
      obtain ⟨_,rfl⟩ := List.getElem?_eq_some_iff.mp last
      exact resolves depth deep
  refine ⟨bound + 2,fun depth deep p s level content start => ?_⟩
  obtain ⟨depth,rfl⟩ : ∃ n, depth = n + 2 := ⟨depth - 2,by omega⟩
  have start_again := start
  obtain ⟨planted,idle,anchored,room,plain,dotless,informed⟩ := start
  cases planted with
  | @scalar id w raw override old blank body literal =>
    obtain rfl : w = .list a values := content
    cases literal
  | mapping => cases content
  | @list first x a' parts old blank body least within apart parents planted =>
    obtain ⟨rfl,rfl⟩ : a' = a ∧ parts.map Plot.value = values := by simpa using content
    obtain ⟨t,parts',settle,items,values,settled⟩ := settleSequence_run host depth start_again body within apart parents planted
    have informed' := informed.advance settled
    -- What stands in a place after settling is the replacement for it, or what was built there.
    have value_at (i : Nat) (q : Plot) (item : parts'[i]? = some q) : ∃ p, parts[i]? = some p ∧
        (replacement (path ++ [.ofNat i])).getD p.value = q.value := by
      have here := congrArg (·[i]?) values
      simp only [List.getElem?_map,item,List.getElem?_mapIdx,Option.map_some] at here
      exact Option.map_eq_some_iff.mp here.symm
    have plain' (q : Plot) (member : q ∈ parts') : q.value.isPlain settings = true := by
      obtain ⟨i,inside,rfl⟩ := List.getElem_of_mem member
      obtain ⟨p,before,same⟩ := value_at i _ (List.getElem?_eq_getElem inside)
      rw [← same]
      exact informed.plain (Value.isPlain_list.mp plain _ (List.mem_map_of_mem (List.mem_of_getElem? before)))
    have size : parts.length = finals.length := by simpa using sizes
    have size' : parts'.length = parts.length := by simpa using congrArg List.length values
    have resolves' : List.Forall₂ (fun b final => Resolves host settings replacement (path ++ [b.key]) b.plot.value final (depth + 1))
        (Items.branches x parts') finals := by
      refine List.forall₂_iff_get.mpr ⟨by simp [Items.branches,size',size],fun i inside inside' => ?_⟩
      have inner : i < parts'.length := by simpa [Items.branches] using inside
      obtain ⟨p,before,same⟩ := value_at i _ (List.getElem?_eq_getElem inner)
      simp only [Items.branches,List.get_eq_getElem,List.getElem_mapIdx]
      rw [← same]
      exact resolves (depth + 1) (by omega) i (by simpa [size] using inside') _ _ (by simp [before]) (by simp)
    obtain ⟨ready,apart'⟩ := items.waiting
    have places : ((Items.branches x parts').length = finals.length) := resolves'.length_eq
    obtain ⟨ws,u,run,bares,last,resolved⟩ := (items.standing anchored blank room dotless plain').resolveAll_run ready apart' host
      resolves' informed'
    rw [Items.roots_branches] at run
    have grows := items.frame.grows
    have further := last.frame.grows
    have node : u.node x = { s.node x with body := .sequence (parts'.map Plot.root) (parts.map Plot.root) true, resolution := .active } := by
      rw [last.frame.same x (by omega) fun here => ?_,items.node]
      rw [List.append_nil,Standing.around_sites places] at here
      exact (items.inner here).1 rfl
    have worked : Worked u x := ⟨by rw [node],by rw [Store.kind,Node.kind,node]; rintro ⟨⟩⟩
    have value : Runs (Resolve.computeValue host (Calls.ofDepth host (depth + 1)) x) t (.ok (.list u.nextIdentity ws)) (u.issued 1) := by
      refine getNode_run.bind ?_
      rw [items.node]
      refine get_run.bind ?_
      rw [items.shown]
      exact run.bind compute_list_run
    have ended := node_closed (.list u.nextIdentity ws) (Nat.lt_of_lt_of_le old (Nat.le_trans grows further))
    have part (q : Plot) (member : q ∈ parts') : Finished (u.closed x (.list u.nextIdentity ws)) q.root ∧
        ((u.closed x (.list u.nextIdentity ws)).node q.root).parent = some x := by
      obtain ⟨i,inside,rfl⟩ := List.getElem_of_mem member
      have member : (⟨.ofNat i,x,parts'[i]⟩ : Branch) ∈ (sites path (Items.branches x parts') finals).map Site.toBranch := by
        rw [Standing.branches_sites path places]
        exact List.mem_mapIdx.mpr ⟨i,inside,rfl⟩
      exact last.closed worked _ member
    refine ⟨_,_,resolve_of_work host (depth + 1) blank start_again.bound settle ?live value ?untyped ?untransformed,?_⟩
    case live => rw [items.node]; exact blank.live
    case untyped => rw [Store.node_issued,node]; exact blank.untyped
    case untransformed => rw [Store.node_issued,node]; exact blank.untransformed
    refine ⟨?value,?finished,?parent,?advance⟩
    case value =>
      show Value.list 0 (Value.bareAll ws) = Value.list 0 (Value.bareAll finals)
      rw [Value.bareAll_eq_map,Value.bareAll_eq_map,bares]
    case parent =>
      show ((u.closed x (.list u.nextIdentity ws)).node x).parent = (s.node x).parent
      rw [ended,node]
    case finished =>
      have body' : ((u.closed x (.list u.nextIdentity ws)).node x).body =
          .sequence (parts'.map Plot.root) (parts.map Plot.root) true := by rw [ended,node]
      refine .sequence ?_ body' (congrArg Node.resolution ended) (fun y member => ?_) fun y member => ?_
      · exact (congrArg Node.replacedBy ended).trans ((congrArg Node.replacedBy node).trans blank.live)
      all_goals obtain ⟨q,among,rfl⟩ := List.mem_map.mp member
      · exact (part q among).2
      · exact (part q among).1
    case advance =>
      refine ((settled.trans resolved fun id small here => ?_).trans (.closed _) fun id small here => ?_).mono
        (fun _ _ here => here) fun used => ?_
      · exact (items.inner (by simpa using here)).2.resolve_right (Nat.not_le.mpr small)
      · exact ⟨here ▸ least,Nat.le_of_eq here⟩
      · rw [or_false,← Items.used_iff x (size'.trans size),size']

/-! ## Mappings -/

/-- A bare key is no index, so it keeps its place among the keys. -/
theorem Key.arrayIndex?_bare {key : Text} (bare : Key.isBare key = true) : key.arrayIndex? = none := by
  obtain ⟨named,_⟩ := Bool.and_eq_true_iff.mp bare
  obtain ⟨units⟩ := key
  cases units with
  | nil => simp [Address.isName] at named
  | cons u rest =>
    obtain ⟨starts,_⟩ : u.startsName = true ∧ rest.all CodeUnit.inName = true := by simpa [Address.isName] using named
    have no_digit : u.isDigit = false := by
      simp only [CodeUnit.startsName,CodeUnit.isLetter,CodeUnit.isDigit,Bool.or_eq_true,Bool.and_eq_true,decide_eq_true_eq,
        beq_iff_eq,UInt16.le_iff_toNat_le,← UInt16.toNat_inj,Bool.and_eq_false_iff,decide_eq_false_iff_not,
        UInt16.reduceToNat] at *
      omega
    simp [Text.arrayIndex?,no_digit]

theorem Pairs.insert_fresh {α : Type} {pairs : List (Text × α)} {key : Text} (bare : Key.isBare key = true)
    (fresh : get? pairs key = none) (v : α) : insert pairs key v = pairs ++ [(key,v)] := by
  rw [insert,contains,fresh,add,Key.arrayIndex?_bare bare]
  rfl

theorem Pairs.get?_append_fresh {α : Type} {pairs : List (Text × α)} {key other : Text} {v : α} (differ : other ≠ key) :
    get? (pairs ++ [(key,v)]) other = get? pairs other := by
  simp [get?,List.lookup_append,List.lookup_cons,beq_false_of_ne differ]

/-- An entry that was modified stays as it is while trees are resolved that do not hold it. -/
theorem Modified.same {x : Nat} {b : Branch} (modified : Modified s x b) (same : t.node b.entry = s.node b.entry) : Modified t x b :=
  ⟨same ▸ modified.live,same ▸ modified.parent,same ▸ modified.body⟩

theorem Modified.old {x : Nat} {b : Branch} (modified : Modified s x b) : b.entry < s.nodes.size := by
  obtain ⟨_,_,head,declared,evaluated,_,body⟩ := modified
  exact old_of_entry body

/-- The value of a modified entry is at hand. -/
theorem Modified.entryValue_run {x : Nat} {b : Branch} (modified : Modified s x b) (host : Host) (depth : Nat)
    (live : (s.node b.plot.root).replacedBy = none) :
    Runs (Navigate.entryValue (Calls.ofDepth host (depth + 1)) b.entry) s (.ok b.plot.root) s := by
  obtain ⟨_,_,head,declared,evaluated,_,body⟩ := modified
  have settle : Runs ((Calls.ofDepth host (depth + 1)).settle b.entry) s (.ok ()) s := by
    refine getNode_run.bind ?_
    rw [body]
    exact Runs.ok _ _
  refine settle.bind (get_run.bind ?_)
  rw [Store.entryValue,Store.slot,body,Store.current_of_live live]
  exact Runs.ok _ _

theorem Modified.exposedKey {x : Nat} {b : Branch} (modified : Modified s x b) : s.exposedKey b.entry = b.key := by
  obtain ⟨_,_,head,declared,evaluated,key,body⟩ := modified
  rw [Store.exposedKey,body]
  exact key

namespace Parts

variable {s₁ : Store} {replacement : List Text → Option Value} {x depth : Nat} {done rest : List Site}

/-- The pairs of a mapping are put together by resolving the value of each entry. -/
theorem pairsOf_run (host : Host) {all : List Site} {finals : List Value}
    (yields : List.Forall₂ (fun p final => p.Yields host settings replacement final (depth + 1) (Around all) s₁) rest finals)
    (parts : Parts s₁ done rest s) (whole : done ++ rest = all) (informed : Informed settings replacement s)
    (modified : ∀ p ∈ all, Modified s₁ x p.toBranch) (outside : ∀ p ∈ all, ¬ Around all p.entry)
    (bare : ∀ p ∈ rest, Key.isBare p.key = true) (distinct : (rest.map fun p => p.key).Nodup) (emitted : List (Text × Text))
    (pairs : Pairs) (fresh : ∀ p ∈ rest, emitted.lookup p.key = none ∧ Pairs.get? pairs p.key = none) :
    ∃ ws t, Runs (Resolve.pairsOf (Calls.ofDepth host (depth + 1)) emitted pairs (rest.map fun p => p.entry)) s
        (.ok (pairs ++ (rest.map fun p => p.key).zip ws)) t ∧
      ws.map Value.bare = finals.map Value.bare ∧ Parts s₁ all [] t ∧
      Advance (Around all) (fun used => ∃ p ∈ rest, p.used used) s t := by
  induction yields generalizing done s emitted pairs with
  | nil =>
    obtain rfl : done = all := by simpa using whole
    refine ⟨[],s,?_,rfl,parts,(Advance.refl _ s).mono (fun _ _ within => within) (by simp)⟩
    rw [List.map_nil,List.zip_nil_right,List.append_nil]
    exact Runs.ok _ _
  | @cons p final rest finals here _ ih =>
    have member : p ∈ all := by simp [← whole]
    have waits := parts.waits p (by simp)
    have root : s.node p.plot.root = s₁.node p.plot.root := parts.same p (by simp) _ waits.root
    have modified_now := (modified p member).same (parts.frame.same _ (modified p member).old (whole ▸ outside p member))
    obtain ⟨unemitted,absent⟩ := fresh p (by simp)
    obtain ⟨new,distinct⟩ := List.nodup_cons.mp distinct
    obtain ⟨w,t,run,value,further,advance⟩ := parts.resolve_run informed host (whole ▸ here)
    have fresh' (q : Site) (later : q ∈ rest) : ((p.key,s.entryKey p.entry) :: emitted).lookup q.key = none ∧
        Pairs.get? (pairs ++ [(p.key,w)]) q.key = none := by
      have differ : q.key ≠ p.key := fun same => new (List.mem_map.mpr ⟨q,later,same⟩)
      obtain ⟨unemitted,absent⟩ := fresh q (List.mem_cons_of_mem _ later)
      rw [List.lookup_cons,beq_false_of_ne differ,Pairs.get?_append_fresh differ]
      exact ⟨unemitted,absent⟩
    obtain ⟨ws,u,runs,values,last,advances⟩ := ih further (by simpa using whole) (informed.advance advance)
      (fun q later => bare q (List.mem_cons_of_mem _ later)) distinct ((p.key,s.entryKey p.entry) :: emitted) (pairs ++ [(p.key,w)]) fresh'
    refine ⟨w :: ws,u,?_,by simp [value,values],last,?_⟩
    · refine (modified_now.entryValue_run host depth (root ▸ waits.live)).bind (get_run.bind ?_)
      rw [root,waits.shown,modified_now.exposedKey]
      simp only [Bool.false_eq_true,if_false,unemitted]
      refine (Runs.ok _ _).bind (run.bind ?_)
      rw [Pairs.insert_fresh (bare p (by simp)) absent]
      simpa using runs
    · refine ((advance.mono (fun id _ within => ⟨p,member,within⟩) fun _ => Iff.rfl).trans advances fun id _ within => within).mono
        (fun _ _ within => within) fun used => ?_
      simp

end Parts

/-- A mapping that was settled, with the places of its values. -/
structure Housed (s : Store) (x : Nat) (all : List Site) : Prop where
  body : (s.node x).body = .mapping (all.map fun p => p.entry) true
  modified : ∀ p ∈ all, Modified s x p.toBranch
  parts : Parts s [] all s
  above : ¬ Around all x
  outside : ∀ p ∈ all, ¬ Around all p.entry

/-- Once a mapping was settled, it is resolved by resolving what is in its places. -/
theorem Housed.resolve_run {x : Nat} {all : List Site} (housed : Housed t x all) (host : Host) (depth : Nat)
    {replacement : List Text → Option Value} {a : Identity} {finals : Pairs} (old : x < s.nodes.size) (grows : s.nodes.size ≤ t.nodes.size)
    (blank : (s.node x).Blank) (bound : Runs (requireSession x) s (.ok ()) s)
    (settle : Runs ((Calls.ofDepth host (depth + 1)).settle x) (s.begun x) (.ok ()) t)
    (here : ∃ body, t.node x = { s.node x with body, resolution := .active }) (informed : Informed settings replacement t)
    (bare : ∀ p ∈ all, Key.isBare p.key = true) (keys : all.map (fun p => p.key) = Pairs.keys finals) (distinct : (Pairs.keys finals).Nodup)
    (yields : List.Forall₂ (fun p final => p.Yields host settings replacement final (depth + 1) (Around all) t) all (finals.map Prod.snd)) :
    ∃ w u, Runs ((Calls.ofDepth host (depth + 2)).resolve x) s (.ok w) u ∧ w.bare = (Value.mapping a finals).bare ∧
      Finished u x ∧ (u.node x).parent = (s.node x).parent ∧ Advance (fun i => i = x ∨ Around all i) (fun place => ∃ p ∈ all, p.used place) t u := by
  obtain ⟨body,here⟩ := here
  obtain ⟨ws,u,run,bares,last,resolved⟩ := Parts.pairsOf_run host yields housed.parts (List.nil_append _) informed housed.modified
    housed.outside bare (keys ▸ distinct) [] [] (by simp [Pairs.get?])
  obtain ⟨w,w_eq⟩ : ∃ w, w = Value.mapping u.nextIdentity ((all.map fun p => p.key).zip ws) := ⟨_,rfl⟩
  have further := resolved.grows
  have body_eq : (t.node x).body = body := by rw [here]
  have node : u.node x = { s.node x with body := .mapping (all.map fun p => p.entry) true, resolution := .active } := by
    rw [resolved.same x (by omega) housed.above,here,← body_eq,housed.body]
  have worked : Worked u x := ⟨by rw [node],by rw [Store.kind,Node.kind,node]; rintro ⟨⟩⟩
  have value : Runs (Resolve.computeValue host (Calls.ofDepth host (depth + 1)) x) t (.ok w) (u.issued 1) := by
    refine getNode_run.bind ?_
    rw [housed.body,w_eq]
    exact run.bind compute_mapping_run
  have ended := node_closed w (Nat.lt_of_lt_of_le old (Nat.le_trans grows further))
  have entry (p : Site) (member : p ∈ all) : Modified (u.closed x w) x p.toBranch := by
    obtain ⟨_,_,_,_,_,_,p_body⟩ := housed.modified p member
    have apart : p.entry ≠ x := by
      intro same
      have x_body := housed.body
      rw [same] at p_body
      rw [p_body] at x_body
      cases x_body
    have p_old := (housed.modified p member).old
    refine (housed.modified p member).same ?_
    rw [(Advance.closed w).same _ (Nat.lt_of_lt_of_le p_old further) apart,resolved.same _ p_old (housed.outside p member)]
  have branches : (all.map Site.toBranch).map Branch.entry = all.map fun p => p.entry := List.map_map
  refine ⟨w,_,resolve_of_work host (depth + 1) blank bound settle ?live value ?untyped ?untransformed,
    ?value,?finished,?parent,?advance⟩
  case live => rw [here]; exact blank.live
  case untyped => rw [Store.node_issued,node]; exact blank.untyped
  case untransformed => rw [Store.node_issued,node]; exact blank.untransformed
  case value =>
    rw [w_eq]
    show Value.mapping 0 (Value.barePairs _) = Value.mapping 0 (Value.barePairs finals)
    rw [Value.barePairs_eq_map,Value.barePairs_eq_map,keys]
    have zipped : ((Pairs.keys finals).zip ws).map (fun p => (p.1,p.2.bare)) = (Pairs.keys finals).zip (ws.map Value.bare) :=
      List.zip_map_right.symm
    rw [zipped,bares,List.map_map,Pairs.keys,List.zip_map']
    rfl
  case parent =>
    show ((u.closed x w).node x).parent = (s.node x).parent
    rw [ended,node]
  case finished =>
    have body' : ((u.closed x w).node x).body = .mapping ((all.map Site.toBranch).map Branch.entry) true := by rw [ended,node,branches]
    refine .mapping ?_ body' (congrArg Node.resolution ended) (fun b member => ?_) (fun b member => ?_) fun b member => ?_
    · exact (congrArg Node.replacedBy ended).trans ((congrArg Node.replacedBy node).trans blank.live)
    · obtain ⟨p,among,rfl⟩ := List.mem_map.mp member
      exact entry p among
    · exact (last.closed worked w member).2
    · exact (last.closed worked w member).1
  case advance =>
    refine ((resolved.mono (fun i _ => .inr) fun _ => Iff.rfl).trans (.closed w) fun i _ => .inl).mono (fun _ _ held => held) fun place => ?_
    rw [or_false]

/-- A mapping that was not settled: its entries wait, each after the tree in its value slot and before the next one. -/
structure Laid (s : Store) (first x : Nat) (branches : List Branch) : Prop where
  old : x < s.nodes.size
  live : (s.node x).replacedBy = none
  body : (s.node x).body = .mapping (branches.map Branch.entry) false
  least : first ≤ x
  within : ∀ b ∈ branches, first ≤ b.plot.first ∧ b.plot.root < b.entry ∧ b.entry < x
  apart : branches.Pairwise fun b c => b.entry < c.plot.first
  parents : ∀ b ∈ branches, (s.node b.plot.root).parent = some b.entry
  waiting : ∀ b ∈ branches, Waiting s x b
  planted : ∀ b ∈ branches, Planted s b.plot
  idle : ∀ id, Stretch first x id → ¬ (s.node id).Over

/-- A planted mapping that was not worked on waits. -/
theorem Planted.laid {first x : Nat} {a : Identity} {pairs : Pairs} (planted : Planted s ⟨first,x,.mapping a pairs⟩)
    (idle : Plot.Idle ⟨first,x,.mapping a pairs⟩ s) :
    ∃ branches, branches.map (fun b => (b.key,b.plot.value)) = pairs ∧ Laid s first x branches := by
  cases planted with
  | scalar _ _ _ literal => cases literal
  | @mapping _ _ _ branches old blank body least within apart parents entries planted =>
    refine ⟨branches,rfl,old,blank.live,body,least,within,apart,parents,fun b member => ?_,planted,idle⟩
    obtain ⟨blank,parent,body⟩ := entries b member
    exact ⟨blank,parent,none,by simp [Store.NothingInherited],body⟩

namespace Laid

variable {first x : Nat} {branches : List Branch}

/-- A mapping waits on as long as its entries and their trees are not worked on. -/
theorem frame {inside : NodeId → Prop} (laid : Laid s first x branches) (frame : s.Frame inside t)
    (idle : ∀ id : Nat, inside id → ¬ (s.node id).Over) (apart : ∀ id, Stretch first x id → id ≠ x → ¬ inside id)
    (live : (t.node x).replacedBy = none) (body : (t.node x).body = (s.node x).body) (waits : ¬ (t.node x).Over) :
    Laid t first x branches := by
  have old := laid.old
  have grows := frame.grows
  have same (id : Nat) (holds : Stretch first x id) (differ : id ≠ x) : t.node id = s.node id :=
    frame.same id (Nat.lt_of_le_of_lt holds.2 laid.old) (apart id holds differ)
  have inner (b : Branch) (member : b ∈ branches) (id : Nat) (holds : b.plot.Holds id ∨ id = b.entry) : Stretch first x id ∧ id ≠ x := by
    have least := (laid.planted b member).least
    obtain ⟨lower,upper,last⟩ := laid.within b member
    rcases holds with ⟨lower',upper'⟩ | rfl
    · exact ⟨⟨by omega,by omega⟩,by omega⟩
    · exact ⟨⟨by omega,by omega⟩,by omega⟩
  have at_root (b : Branch) (member : b ∈ branches) : b.plot.Holds b.plot.root := ⟨(laid.planted b member).least,Nat.le_refl _⟩
  refine ⟨by omega,live,body.trans laid.body,laid.least,laid.within,laid.apart,fun b member => ?_,fun b member => ?_,fun b member => ?_,
    fun id holds => ?_⟩
  · obtain ⟨holds,differ⟩ := inner b member _ (.inl (at_root b member))
    rw [same _ holds differ]
    exact laid.parents b member
  · obtain ⟨holds,differ⟩ := inner b member b.entry (.inr rfl)
    exact (laid.waiting b member).frame frame idle (same _ holds differ)
  · refine (laid.planted b member).frame frame.grows fun id within => ?_
    obtain ⟨holds,differ⟩ := inner b member id (.inl within)
    exact same id holds differ
  · by_cases here : id = x
    · exact here ▸ waits
    · rw [same id holds here]
      exact laid.idle id holds

/-- Nothing of it changes when work on the mapping begins. -/
theorem begun (laid : Laid s first x branches) : Laid (s.begun x) first x branches := by
  have here := node_begun laid.old
  refine laid.frame (show Advance (· = x) (fun _ => False) s _ from .begun rfl).toFrame
    (fun id at_x => at_x ▸ laid.idle x ⟨laid.least,Nat.le_refl _⟩) (fun id _ differ => differ) ?_ ?_ ?_
  all_goals rw [here]
  · exact laid.live
  · rw [Node.Over,laid.body]
    rintro ⟨_,impossible⟩
    cases impossible

/-- As settling begins, the entries are as they were built. -/
theorem entries (laid : Laid s first x branches) :
    Entries s first x [] branches (s.update x fun n => { n with body := .mapping (branches.map Branch.entry) true }) := by
  obtain ⟨old,live,body,least,within,apart,parents,waiting,planted,idle⟩ := laid
  have frame : s.Frame (· = x) (s.update x fun n => { n with body := .mapping (branches.map Branch.entry) true }) := .update rfl
  refine ⟨least,old,frame.mono fun id _ here => ⟨here ▸ least,Nat.le_of_eq here⟩,?node,by simp,by simp,?waiting,?ready,?inner,?below,
    ?outside,?apart⟩
  case node => rw [Store.node_update_self old]; rfl
  case waiting =>
    intro b member
    obtain ⟨_,_,upper⟩ := within b member
    exact (waiting b member).frame frame (fun id at_x => at_x ▸ idle x ⟨least,Nat.le_refl _⟩)
      (frame.same b.entry (Nat.lt_trans upper old) (Nat.ne_of_lt upper))
  case ready =>
    intro b member
    obtain ⟨lower,inner,upper⟩ := within b member
    have ready : Ready s b.entry b.plot := ⟨planted b member,fun id holds =>
      idle id ⟨Nat.le_trans lower holds.1,Nat.le_trans holds.2 (by omega)⟩,parents b member⟩
    exact ready.frame frame fun id holds same => Nat.not_le.mpr (Nat.lt_trans inner upper) (same ▸ holds.2)
  case inner =>
    intro b member
    have least := (planted b member).least
    obtain ⟨lower,inner,upper⟩ := within b member
    exact ⟨by omega,upper⟩
  case below =>
    intro b member
    obtain ⟨lower,inner,upper⟩ := within b member
    exact .inl ⟨lower,Nat.lt_trans inner upper⟩
  case outside =>
    rintro b member c other ⟨lower,upper⟩
    have b_inner := (within b member).2.1
    have c_inner := (within c other).2.1
    have c_least := (planted c other).least
    rcases related_of_pairwise apart member other with rfl | before | after
    · omega
    · omega
    · omega
  case apart =>
    refine apart.imp_of_mem fun {b c} member other before => ?_
    have b_inner := (within b member).2.1
    have c_inner := (within c other).2.1
    have c_least := (planted c other).least
    exact ⟨.inl (by omega),by omega⟩

/-- Settling a mapping puts the replacement for the value of each entry in its place. -/
theorem settle_run (laid : Laid s first x branches) (host : Host) (depth : Nat) {replacement : List Text → Option Value}
    {path : List Text} {level : Nat} (anchored : s.Anchored (Stretch first x) x path level)
    (room : level + (x + 1 - first) ≤ s.nodes.size) (dotless : Dotless path) (bare : ∀ b ∈ branches, Key.isBare b.key = true)
    (informed : Informed settings replacement s) :
    ∃ (t : Store) (branches' : List Branch), Runs ((Calls.ofDepth host (depth + 4)).settle x) s (.ok ()) t ∧
      Entries s first x branches' [] t ∧
      branches'.map (fun b => (b.key,b.plot.value)) = branches.map (fun b =>
        (b.key,(replacement (path ++ [b.key])).getD b.plot.value)) ∧
      Advance (Stretch first x) (fun used => ∃ b ∈ branches, used = path ++ [b.key]) s t := by
  have begun : Advance (Stretch first x) (fun _ => False) s (s.update x
      fun n => { n with body := .mapping (branches.map Branch.entry) true }) := .update ⟨laid.least,Nat.le_refl _⟩
  have informed := informed.advance begun
  obtain ⟨t,branches',run,entries,values,advance⟩ := settleEntries_run host depth anchored laid.live room dotless branches []
    laid.entries (fun b member => Key.bare_dotless (bare b member)) informed.overrides_plain
  rw [informed.in_overrides] at values
  refine ⟨t,branches',?_,by simpa using entries,values,?_⟩
  · refine getNode_run.bind ?_
    rw [laid.body]
    exact modifyNode_run.bind run
  · exact (begun.trans advance fun id old here => here.resolve_right (Nat.not_le.mpr old)).mono (fun _ _ here => here) (by simp)

end Laid

/-- The entries of a settled mapping, with the trees that wait to be resolved as their values. -/
structure Gathered (s : Store) (x : Nat) (branches : List Branch) : Prop where
  body : (s.node x).body = .mapping (branches.map Branch.entry) true
  modified : ∀ b ∈ branches, Modified s x b
  ready : ∀ b ∈ branches, Ready s b.entry b.plot
  above : ∀ b ∈ branches, ¬ b.plot.Holds x
  outside : ∀ b ∈ branches, ∀ c ∈ branches, ¬ b.plot.Holds c.entry
  apart : branches.Pairwise fun b c => b.plot.Apart c.plot

theorem Entries.gathered {s₀ : Store} {first x : Nat} {branches : List Branch} (entries : Entries s₀ first x branches [] s) :
    Gathered s x branches where
  body := by
    rw [entries.node]
    simp
  modified := entries.modified
  ready b member := entries.ready b (by simpa using member)
  above b member := entries.not_above (by simpa using member)
  outside b member c other := entries.outside b (by simpa using member) c (by simpa using other)
  apart := by simpa using entries.apart.imp And.left

/-- What a tree in a place of a mapping holds lies in the stretch where the mapping was planted or is new. -/
theorem Entries.held {s₀ : Store} {first x : Nat} {branches : List Branch} (entries : Entries s₀ first x branches [] s) {id : Nat}
    (here : ∃ b ∈ branches, b.plot.Holds id) : Stretch first x id ∨ s₀.nodes.size ≤ id := by
  obtain ⟨c,among,holds⟩ := here
  rcases entries.below c (by simpa using among) with ⟨least,last⟩ | new
  · exact .inl ⟨Nat.le_trans least holds.1,Nat.le_trans holds.2 (Nat.le_of_lt last)⟩
  · exact .inr (Nat.le_trans new holds.1)

/-- There is room below the mapping for the trees in its places. -/
theorem Entries.room {s₀ : Store} {first x level : Nat} {branches : List Branch} (entries : Entries s₀ first x branches [] s)
    (room : level + (x + 1 - first) ≤ s₀.nodes.size) (b : Branch) (member : b ∈ branches) :
    level + 2 + (b.plot.root + 1 - b.plot.first) ≤ s.nodes.size := by
  have among : b ∈ branches ++ [] := by simpa using member
  have grows := entries.frame.grows
  have first_le := entries.first_le
  have ready := entries.ready b among
  have least := ready.planted.least
  have old := ready.planted.old
  obtain ⟨lower,upper⟩ := entries.inner b among
  have apart : b.entry < b.plot.first ∨ b.plot.root < b.entry := by
    by_contra within
    exact entries.outside b among b among ⟨by omega,by omega⟩
  rcases entries.below b among with ⟨lower',upper'⟩ | new
  · omega
  · omega

namespace Gathered

variable {x level : Nat} {path : List Text} {branches : List Branch}

/-- What a tree in a place holds is no entry nor the mapping. -/
theorem inner (gathered : Gathered s x branches) {id : Nat} (here : ∃ b ∈ branches, b.plot.Holds id) :
    id ≠ x ∧ ∀ b ∈ branches, id ≠ b.entry := by
  obtain ⟨c,among,holds⟩ := here
  exact ⟨fun same => gathered.above c among (same ▸ holds),fun b member same => gathered.outside c among b member (same ▸ holds)⟩

/-- A settled mapping stays as it is as long as none of its nodes is worked on. -/
theorem frame (gathered : Gathered s x branches) (grows : s.nodes.size ≤ t.nodes.size) (body : (t.node x).body = (s.node x).body)
    (entries : ∀ b ∈ branches, t.node b.entry = s.node b.entry)
    (same : ∀ b ∈ branches, ∀ id, b.plot.Holds id → t.node id = s.node id) : Gathered t x branches where
  body := body.trans gathered.body
  modified b member := (gathered.modified b member).same (entries b member)
  ready b member := by
    obtain ⟨planted,idle,parent⟩ := gathered.ready b member
    refine ⟨planted.frame grows (same b member),fun id holds => ?_,?_⟩
    · rw [same b member id holds]
      exact idle id holds
    · rw [same b member _ ⟨planted.least,Nat.le_refl _⟩]
      exact parent
  above := gathered.above
  outside := gathered.outside
  apart := gathered.apart

theorem standing (gathered : Gathered s x branches) (live : (s.node x).replacedBy = none)
    (anchored : s.Anchored (fun id => ∃ b ∈ branches, b.plot.Holds id) x path level)
    (room : ∀ b ∈ branches, level + 2 + (b.plot.root + 1 - b.plot.first) ≤ s.nodes.size) (dotless : Dotless path)
    (plain : ∀ b ∈ branches, Key.isBare b.key = true ∧ b.plot.value.isPlain settings = true) :
    Standing settings path (level + 2) branches s where
  locate t frame b member live' parent := by
    have old := old_of_mappingBody gathered.body
    have same : t.node x = s.node x := frame.same x old fun here => (gathered.inner here).1 rfl
    have above : t.Located x path level := anchored t frame (by rw [same]) (by rw [same]) (by rw [same,live])
    have same_entry : t.node b.entry = s.node b.entry :=
      frame.same _ (gathered.modified b member).old fun here => (gathered.inner here).2 b member rfl
    obtain ⟨entry_live,entry_parent,head,declared,evaluated,key,body⟩ := (gathered.modified b member).same same_entry
    rw [← key]
    exact above.value (by rw [same,gathered.body]) (List.mem_map_of_mem member) body entry_live entry_parent live' parent
  room := room
  plain b member := (plain b member).2
  dotless b member := dotless.append (Key.bare_dotless (plain b member).1)

/-- The places of its entries are those of the trees that wait there. -/
theorem housed (gathered : Gathered s x branches) (path : List Text) {finals : List Value} (sizes : branches.length = finals.length) :
    Housed s x (sites path branches finals) := by
  have same : (sites path branches finals).map (fun p => p.entry) = branches.map Branch.entry := by
    conv_rhs => rw [← Standing.branches_sites path sizes,List.map_map]
    rfl
  have among (p : Site) (member : p ∈ sites path branches finals) : p.toBranch ∈ branches := by
    rw [← Standing.branches_sites path sizes]
    exact List.mem_map_of_mem member
  refine ⟨by rw [gathered.body,same],fun p member => gathered.modified _ (among p member),Standing.parts sizes gathered.ready gathered.apart,?_,
    fun p member => ?_⟩
  · rw [Standing.around_sites sizes]
    exact fun held => (gathered.inner held).1 rfl
  · rw [Standing.around_sites sizes]
    exact fun held => (gathered.inner held).2 _ (among p member) rfl

/-- A mapping is resolved, once it was settled, by resolving the trees in its places. -/
theorem resolve_run (gathered : Gathered t x branches) (host : Host) (depth : Nat) {replacement : List Text → Option Value}
    {a : Identity} {finals : Pairs} (old : x < s.nodes.size) (grows : s.nodes.size ≤ t.nodes.size)
    (blank : (s.node x).Blank) (bound : Runs (requireSession x) s (.ok ()) s)
    (settle : Runs ((Calls.ofDepth host (depth + 1)).settle x) (s.begun x) (.ok ()) t)
    (here : ∃ body, t.node x = { s.node x with body, resolution := .active }) (standing : Standing settings path level branches t)
    (informed : Informed settings replacement t) (bare : ∀ b ∈ branches, Key.isBare b.key = true)
    (keys : branches.map Branch.key = Pairs.keys finals) (distinct : (Pairs.keys finals).Nodup)
    (resolves : List.Forall₂ (fun b final => Resolves host settings replacement (path ++ [b.key]) b.plot.value final (depth + 1))
      branches (finals.map Prod.snd)) :
    ∃ w u, Runs ((Calls.ofDepth host (depth + 2)).resolve x) s (.ok w) u ∧ w.bare = (Value.mapping a finals).bare ∧
      Finished u x ∧ (u.node x).parent = (s.node x).parent ∧
      Advance (fun i => i = x ∨ ∃ b ∈ branches, b.plot.Holds i)
        (fun place => ∃ p ∈ branches.zip (finals.map Prod.snd), Beneath (path ++ [p.1.key]) p.2 place) t u := by
  have sizes := resolves.length_eq
  have same : (sites path branches (finals.map Prod.snd)).map (fun p => p.key) = branches.map Branch.key := by
    conv_rhs => rw [← Standing.branches_sites path sizes,List.map_map]
    rfl
  have bare' (p : Site) (member : p ∈ sites path branches (finals.map Prod.snd)) : Key.isBare p.key = true := by
    refine bare p.toBranch ?_
    rw [← Standing.branches_sites path sizes]
    exact List.mem_map_of_mem member
  obtain ⟨w,u,run,value,finished,parent,advances⟩ := (gathered.housed path sizes).resolve_run (a := a) host depth old grows blank bound
    settle here informed bare' (same.trans keys) distinct (standing.yieldsAll gathered.ready host resolves)
  rw [Standing.around_sites sizes] at advances
  refine ⟨w,u,run,value,finished,parent,advances.mono (fun _ _ held => held) fun place => ?_⟩
  rw [Standing.used_sites]

end Gathered

/-- The places of the values and the paths beneath them are those beneath the mapping. -/
theorem used_branches_iff {path : List Text} {branches branches' : List Branch} {finals : Pairs} {id : Identity} {used : List Text}
    (distinct : (Pairs.keys finals).Nodup) (keys : branches.map Branch.key = Pairs.keys finals)
    (keys' : branches'.map Branch.key = Pairs.keys finals) :
    ((∃ b ∈ branches, used = path ++ [b.key]) ∨
      ∃ p ∈ branches'.zip (finals.map Prod.snd), Beneath (path ++ [p.1.key]) p.2 used) ↔ Beneath path (.mapping id finals) used := by
  rw [beneath_mapping distinct]
  constructor
  · rintro (⟨b,member,rfl⟩ | ⟨⟨b,final⟩,member,here⟩)
    · have among : b.key ∈ Pairs.keys finals := keys ▸ List.mem_map_of_mem member
      obtain ⟨⟨key,final⟩,pair,same⟩ := List.mem_map.mp among
      obtain ⟨i,pair⟩ := List.getElem?_of_mem pair
      exact ⟨i,key,final,pair,.inl (by rw [← same])⟩
    · obtain ⟨i,pair⟩ := List.getElem?_of_mem member
      obtain ⟨left,right⟩ := List.getElem?_zip_eq_some.mp pair
      have key := congrArg (·[i]?) keys'
      obtain ⟨⟨key',final'⟩,there,rfl⟩ : ∃ p, finals[i]? = some p ∧ p.2 = final := by simpa using right
      obtain rfl : b.key = key' := by simpa [Pairs.keys,left,there] using key
      exact ⟨i,_,_,there,.inr here⟩
  · rintro ⟨i,key,final,pair,here⟩
    have inside : i < finals.length := (List.getElem?_eq_some_iff.mp pair).1
    have key_at {all : List Branch} (same : all.map Branch.key = Pairs.keys finals) : ∃ b, all[i]? = some b ∧ b.key = key := by
      have there := congrArg (·[i]?) same
      simp only [List.getElem?_map,Pairs.keys,pair,Option.map_some] at there
      exact Option.map_eq_some_iff.mp there
    rcases here with rfl | here
    · obtain ⟨b,there,rfl⟩ := key_at keys
      exact .inl ⟨b,List.mem_of_getElem? there,rfl⟩
    · obtain ⟨b,there,rfl⟩ := key_at keys'
      exact .inr ⟨(b,final),List.mem_of_getElem? (List.getElem?_zip_eq_some.mpr ⟨there,by simp [pair]⟩),here⟩

/-- A mapping at a path below the root that waits to be resolved, with plain content under bare keys. -/
structure Awaits (settings : Settings) (replacement : List Text → Option Value) (path : List Text) (level first x : Nat)
    (branches : List Branch) (s : Store) : Prop where
  laid : Laid s first x branches
  blank : (s.node x).Blank
  anchored : s.Anchored (Stretch first x) x path level
  room : level + (x + 1 - first) ≤ s.nodes.size
  plain : ∀ b ∈ branches, Key.isBare b.key = true ∧ b.plot.value.isPlain settings = true
  dotless : Dotless path
  informed : Informed settings replacement s

/-- The branches of a mapping whose pairs were replaced. -/
def Replaced (replacement : List Text → Option Value) (path : List Text) (pairs : Pairs) (branches : List Branch) : Prop :=
  branches.map (fun b => (b.key,b.plot.value)) = pairs.map fun p => (p.1,(replacement (path ++ [p.1])).getD p.2)

namespace Replaced

variable {replacement : List Text → Option Value} {path : List Text} {pairs finals : Pairs} {branches : List Branch}

theorem keys (replaced : Replaced replacement path pairs branches) : branches.map Branch.key = Pairs.keys pairs := by
  have same := congrArg (List.map Prod.fst) replaced
  rw [List.map_map,List.map_map] at same
  exact same

theorem plain (replaced : Replaced replacement path pairs branches) (informed : Informed settings replacement s)
    (plain : ∀ p ∈ pairs, Key.isBare p.1 = true ∧ p.2.isPlain settings = true) {b : Branch} (member : b ∈ branches) :
    Key.isBare b.key = true ∧ b.plot.value.isPlain settings = true := by
  have among : (b.key,b.plot.value) ∈ branches.map fun b => (b.key,b.plot.value) := List.mem_map_of_mem member
  rw [replaced] at among
  obtain ⟨p,among,same⟩ := List.mem_map.mp among
  obtain ⟨key,value⟩ := Prod.mk.inj same
  rw [← key,← value]
  exact ⟨(plain p among).1,informed.plain (plain p among).2⟩

/-- When the replacements for the pairs are resolved, so are the trees in the branches. -/
theorem resolves (host : Host) (keys : Pairs.keys pairs = Pairs.keys finals)
    (each : ∀ (i : Nat) key v final, pairs[i]? = some (key,v) → finals[i]? = some (key,final) →
      Resolvable host settings replacement (path ++ [key]) ((replacement (path ++ [key])).getD v) final) :
    ∃ bound, ∀ depth, bound ≤ depth → ∀ branches : List Branch, Replaced replacement path pairs branches →
      List.Forall₂ (fun b final => Resolves host settings replacement (path ++ [b.key]) b.plot.value final depth)
        branches (finals.map Prod.snd) := by
  have sizes : pairs.length = finals.length := by simpa [Pairs.keys] using congrArg List.length keys
  have key_at {i : Nat} {p q : Text × Value} (left : pairs[i]? = some p) (right : finals[i]? = some q) : p.1 = q.1 := by
    simpa [Pairs.keys,left,right] using congrArg (·[i]?) keys
  obtain ⟨bound,resolves⟩ := exists_bound (P := fun i depth => ∀ p q, pairs[i]? = some p → finals[i]? = some q →
      Resolves host settings replacement (path ++ [p.1]) ((replacement (path ++ [p.1])).getD p.2) q.2 depth)
    pairs.length fun i inside => by
      have left : pairs[i]? = some pairs[i] := List.getElem?_eq_getElem inside
      have right : finals[i]? = some finals[i] := List.getElem?_eq_getElem (sizes ▸ inside)
      obtain ⟨bound,resolves⟩ := each i pairs[i].1 pairs[i].2 finals[i].2 left (by rw [key_at left right]; exact right)
      refine ⟨bound,fun depth deep p q item last => ?_⟩
      obtain ⟨_,rfl⟩ := List.getElem?_eq_some_iff.mp item
      obtain ⟨_,rfl⟩ := List.getElem?_eq_some_iff.mp last
      exact resolves depth deep
  refine ⟨bound,fun depth deep branches replaced => ?_⟩
  have count : branches.length = pairs.length := by simpa using congrArg List.length replaced
  refine List.forall₂_iff_get.mpr ⟨by simp [count,sizes],fun i inside inside' => ?_⟩
  have inner : i < finals.length := by simpa using inside'
  have here := congrArg (·[i]?) replaced
  simp only [List.getElem?_map,List.getElem?_eq_getElem inside,List.getElem?_eq_getElem (count ▸ inside),Option.map_some,Option.some.injEq,
    Prod.mk.injEq] at here
  simp only [List.get_eq_getElem,List.getElem_map]
  rw [here.1,here.2]
  exact resolves depth deep i (count ▸ inside) _ finals[i] (List.getElem?_eq_getElem _) (List.getElem?_eq_getElem inner)

end Replaced

/-- Such a mapping is resolved when the values of its entries are, whatever replaces them. -/
theorem resolvable_laid (host : Host) {replacement : List Text → Option Value} {path : List Text} {b : Identity}
    {pairs finals : Pairs} (distinct : (Pairs.keys finals).Nodup) (keys : Pairs.keys pairs = Pairs.keys finals)
    (each : ∀ (i : Nat) key v final, pairs[i]? = some (key,v) → finals[i]? = some (key,final) →
      Resolvable host settings replacement (path ++ [key]) ((replacement (path ++ [key])).getD v) final) :
    ∃ bound, ∀ depth, bound ≤ depth → ∀ (s : Store) (level first x : Nat) (branches : List Branch) (v : Value),
      branches.map (fun b => (b.key,b.plot.value)) = pairs → Awaits settings replacement path level first x branches s →
      ∃ w t, Runs ((Calls.ofDepth host depth).resolve x) s (.ok w) t ∧ Finish path (.mapping b finals) ⟨first,x,v⟩ s w t := by
  obtain ⟨bound,resolves⟩ := Replaced.resolves host keys each
  refine ⟨bound + 5,fun depth deep s level first x branches v content awaits => ?_⟩
  obtain ⟨depth,rfl⟩ : ∃ n, depth = n + 5 := ⟨depth - 5,by omega⟩
  obtain ⟨laid,blank,anchored,room,plain,dotless,informed⟩ := awaits
  have begun : Advance (Stretch first x) (fun _ => False) s (s.begun x) := .begun ⟨laid.least,Nat.le_refl _⟩
  have after := node_begun laid.old
  have anchored_begun : (s.begun x).Anchored (Stretch first x) x path level := fun u frame parent bound live =>
    anchored u (begun.toFrame.trans frame) (by rw [parent,after]) (by rw [bound,after]) live
  have size : (s.begun x).nodes.size = s.nodes.size := by simp [Store.begun]
  obtain ⟨t,branches',settle,settled,values,advance⟩ := laid.begun.settle_run host depth anchored_begun (by rw [size]; exact room)
    dotless (fun b member => (plain b member).1) (informed.advance begun)
  have advance_t := begun.trans advance fun _ _ here => here
  have informed' := informed.advance advance_t
  have replaced : Replaced replacement path pairs branches' := by
    rw [Replaced,values,← content,List.map_map]
    rfl
  have branch (c : Branch) (member : c ∈ branches') := replaced.plain informed' (fun p among => by
    rw [← content] at among
    obtain ⟨b,member,rfl⟩ := List.mem_map.mp among
    exact plain b member) member
  have own_keys : branches.map Branch.key = Pairs.keys finals := by
    rw [← keys,← content]
    simp [Pairs.keys]
  have own_keys' : branches'.map Branch.key = Pairs.keys finals := replaced.keys.trans keys
  have gathered := settled.gathered
  have live' : (t.node x).replacedBy = none := by
    rw [settled.node,after]
    exact blank.live
  have anchored' : t.Anchored (fun id => ∃ b ∈ branches', b.plot.Holds id) x path level := fun u frame parent bound live =>
    anchored_begun u (settled.frame.followed frame fun id old here => (settled.held here).resolve_right (Nat.not_le.mpr old))
      (by rw [parent,settled.node]) (by rw [bound,settled.node]) live
  obtain ⟨w,u,run,value,finished,parent,advance'⟩ := gathered.resolve_run (a := b) host (depth + 3) laid.old advance_t.grows blank
    ((anchored s (.refl _ _) rfl rfl blank.live).requireSession_run (by omega)) settle ⟨_,by rw [settled.node,after]⟩
    (gathered.standing live' anchored' (settled.room (by rw [size]; exact room)) dotless branch) informed'
    (fun b member => (branch b member).1) own_keys' distinct (resolves (depth + 4) (by omega) branches' replaced)
  refine ⟨w,u,run,value,finished,parent,(advance_t.trans advance' fun i small here => ?_).mono (fun _ _ here => here) fun place => ?_⟩
  · rcases here with rfl | held
    · exact ⟨laid.least,Nat.le_refl _⟩
    · exact (settled.held held).resolve_right (Nat.not_le.mpr (by rw [size]; exact small))
  · rw [false_or,← used_branches_iff distinct own_keys own_keys']

/-- A mapping is resolved when the values of its entries are, whatever replaces them. -/
theorem resolvable_mapping (host : Host) {replacement : List Text → Option Value} {path : List Text} {a b : Identity}
    {pairs finals : Pairs} (distinct : (Pairs.keys finals).Nodup) (keys : Pairs.keys pairs = Pairs.keys finals)
    (each : ∀ (i : Nat) key v final, pairs[i]? = some (key,v) → finals[i]? = some (key,final) →
      Resolvable host settings replacement (path ++ [key]) ((replacement (path ++ [key])).getD v) final) :
    Resolvable host settings replacement path (.mapping a pairs) (.mapping b finals) := by
  obtain ⟨bound,resolves⟩ := resolvable_laid host (b := b) distinct keys each
  refine ⟨bound,fun depth deep p s level content start => ?_⟩
  obtain ⟨first,x,v⟩ := p
  obtain rfl : v = .mapping a pairs := content
  obtain ⟨planted,idle,anchored,room,plain,dotless,informed⟩ := start
  obtain ⟨branches,rfl,laid⟩ := planted.laid idle
  obtain ⟨_,each_plain⟩ := Value.isPlain_mapping.mp plain
  exact resolves depth deep s level first x branches _ rfl
    ⟨laid,planted.blank,anchored,room,fun b member => each_plain _ (List.mem_map_of_mem member),dotless,informed⟩

/-- Whatever plain content becomes under the overrides is what its tree is resolved to. -/
theorem resolvable_of_becomes (host : Host) {replacement : List Text → Option Value} {path : List Text} {v final : Value}
    (becomes : Becomes replacement path v final) : Resolvable host settings replacement path v final := by
  induction becomes with
  | scalar native => exact resolvable_scalar host native
  | list sizes _ ih => exact resolvable_list host sizes ih
  | mapping distinct keys _ ih => exact resolvable_mapping host distinct keys ih

end ConfTree
