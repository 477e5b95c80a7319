import ConfTree.Proofs.Copies.Declared
import ConfTree.Proofs.Overrides.Settle

/-!
Entries of the root whose keys declare modifiers. Where no override is aimed at its value, modifying such an entry comes to
evaluating its declaration and applying the modifiers, one after another, to what is in its value slot (`Awaiting.begin`).
-/
namespace ConfTree

open StoreM

variable {s t u : Store}

/-- The root of the session's tree, its entries gone through one by one. -/
structure Heading (s : Store) (root : Nat) (entries : List Nat) : Prop where
  live : (s.node root).replacedBy = none
  top : (s.node root).parent = none
  bound : (s.node root).isBound = true
  body : (s.node root).body = .mapping entries true

/-- An entry that was not modified, with what its key declares and the tree in its value slot. -/
structure Awaiting (s : Store) (root : Nat) (source : DeclarationSource) (b : Branch) : Prop where
  blank : (s.node b.entry).Blank
  parent : (s.node b.entry).parent = some root
  body : (s.node b.entry).body = .entry ⟨⟨b.key,source⟩,none⟩ b.plot.root b.plot.root none .pending none
  ready : Ready s b.entry b.plot
  outside : ¬ b.plot.Holds b.entry

/-- The entry of such a branch with another node in its value slot, on the way to being modified. -/
def Node.modifying (n : Node) (b : Branch) (source : DeclarationSource) (slot : Nat) (modification : Progress Unit)
    (evaluated : Option Declaration) : Node :=
  { n with body := .entry ⟨⟨b.key,source⟩,none⟩ slot b.plot.root none modification evaluated }

namespace Heading

variable {root entry y : Nat} {entries : List Nat} {source : DeclarationSource} {b : Branch}

theorem located (heading : Heading s root entries) : s.Located root [] 0 := .root heading.live heading.top heading.bound

theorem old (heading : Heading s root entries) : root < s.nodes.size := old_of_mappingBody heading.body

theorem same (heading : Heading s root entries) (same : t.node root = s.node root) : Heading t root entries :=
  ⟨same ▸ heading.live,same ▸ heading.top,same ▸ heading.bound,same ▸ heading.body⟩

variable {key : Key} {inherited : Option NodeId} {slot declared : Nat} {renamed : Option Text} {modification : Progress Unit}
  {evaluated : Option Declaration}

/-- The value of an entry of the root has the entry's key as its name. -/
theorem value (heading : Heading s root entries) (member : entry ∈ entries) (live : (s.node entry).replacedBy = none)
    (parent : (s.node entry).parent = some root)
    (body : (s.node entry).body = .entry ⟨key,inherited⟩ slot declared renamed modification evaluated)
    (y_live : (s.node y).replacedBy = none) (y_parent : (s.node y).parent = some entry) : s.Located y [key.name] 2 :=
  heading.located.value heading.body member body live parent y_live y_parent

/-- That stays so as long as the root and the entry are left alone. -/
theorem anchored {inside : NodeId → Prop} (heading : Heading s root entries) (member : entry ∈ entries)
    (live : (s.node entry).replacedBy = none) (parent : (s.node entry).parent = some root)
    (body : (s.node entry).body = .entry ⟨key,inherited⟩ slot declared renamed modification evaluated)
    (y_parent : (s.node y).parent = some entry) (apart : ¬ inside root ∧ ¬ inside entry) : s.Anchored inside y [key.name] 2 := by
  intro t frame above _ y_live
  have same := frame.same entry (old_of_entry body) apart.2
  exact (heading.same (frame.same root heading.old apart.1)).value member (same ▸ live) (same ▸ parent) (same ▸ body) y_live
    (above.trans y_parent)

/-- An entry of the root stands in the session's tree, and has a name. -/
theorem entry_runs (heading : Heading s root entries) (member : entry ∈ entries) (live : (s.node entry).replacedBy = none)
    (parent : (s.node entry).parent = some root) : Runs (requireSession entry) s (.ok ()) s ∧ ∃ name, Runs (nameOf entry) s (.ok name) s := by
  have old := heading.old
  have located := heading.located.entry heading.body member live parent
  exact ⟨located.requireSession_run (by omega),_,located.nameOf_run (by omega)⟩

end Heading

/-- An override is not looked for in vain: a node whose path has none stays as it is. -/
theorem applyOverride_none {x level : Nat} {path : List Text} (located : s.Located x path level) (room : level ≤ s.nodes.size)
    (dotless : Dotless path) (nonempty : path ≠ []) (unreplaced : Overrides.replacement s.session.overrides path = none) :
    Runs (applyOverride x) s (.ok x) s := by
  have absent : s.session.overrides.find? (fun o => o.target == Text.join "." path) = none := by
    have same : (fun o : Override => o.target == Text.join "." path) = fun o => o.path == path := by
      funext o
      rw [Bool.eq_iff_iff,beq_iff_eq,beq_iff_eq]
      exact target_iff dotless nonempty
    rw [same]
    exact Option.map_eq_none_iff.mp unreplaced
  have take : Runs (takeOverride (.join "." path)) s (.ok none) s := by
    refine getSession_run.bind ?_
    simp only [absent]
    exact Runs.ok _ _
  refine current_run.bind ?_
  rw [Store.current_of_live located.live]
  exact (located.requireSession_run room).bind ((located.nameOf_run room).bind (take.bind (Runs.ok _ _)))

/-- Noting how far the modification of an entry came changes nothing of what nodes were built as. -/
theorem setModification_faithful {entry : NodeId} {state : Progress Unit} (run : Runs (Resolve.setModification entry state) s (.ok ()) t) :
    s.Faithful t := by
  obtain ⟨_,rfl⟩ := Runs.unique modifyNode_run run
  refine .update ?_
  obtain ⟨body⟩ := s.node entry
  cases body <;> rfl

namespace Awaiting

variable {root : Nat} {entries : List Nat} {source : DeclarationSource} {b : Branch}

theorem old (awaiting : Awaiting s root source b) : b.entry < s.nodes.size := old_of_entry awaiting.body

theorem apart (awaiting : Awaiting s root source b) : b.plot.root ≠ b.entry := fun same =>
  awaiting.outside ⟨same ▸ awaiting.ready.planted.least,Nat.le_of_eq same.symm⟩

theorem idle (awaiting : Awaiting s root source b) {id : Nat} (here : id = b.plot.root ∨ id = b.entry) : ¬ (s.node id).Over := by
  rcases here with rfl | rfl
  · exact awaiting.ready.idle _ ⟨awaiting.ready.planted.least,Nat.le_refl _⟩
  · rw [Node.Over,awaiting.body]
    rintro ⟨⟩

/-- An entry waits on as long as neither it nor its tree is worked on. -/
theorem frame {inside : NodeId → Prop} (awaiting : Awaiting s root source b) (frame : s.Frame inside t) (entry : ¬ inside b.entry)
    (tree : ∀ id, b.plot.Holds id → ¬ inside id) : Awaiting t root source b := by
  have same := frame.same b.entry awaiting.old entry
  exact ⟨same ▸ awaiting.blank,same ▸ awaiting.parent,same ▸ awaiting.body,awaiting.ready.frame frame tree,awaiting.outside⟩

/-- The entry while it is modified, with whatever tree in its value slot. -/
theorem located (awaiting : Awaiting s root source b) (heading : Heading t root entries) (member : b.entry ∈ entries) {y : Nat}
    {modification : Progress Unit} {evaluated : Option Declaration}
    (here : t.node b.entry = (s.node b.entry).modifying b source y modification evaluated) {x : Nat} (live : (t.node x).replacedBy = none)
    (parent : (t.node x).parent = some b.entry) : t.Located x [b.key] 2 := by
  refine heading.value member ?_ ?_ (congrArg Node.body here) live parent
  all_goals rw [here]
  · exact awaiting.blank.live
  · exact awaiting.parent

theorem entry_runs (awaiting : Awaiting s root source b) (heading : Heading t root entries) (member : b.entry ∈ entries) {y : Nat}
    {modification : Progress Unit} {evaluated : Option Declaration}
    (here : t.node b.entry = (s.node b.entry).modifying b source y modification evaluated) :
    Runs (requireSession b.entry) t (.ok ()) t ∧ ∃ name, Runs (nameOf b.entry) t (.ok name) t := by
  refine heading.entry_runs member ?_ ?_
  all_goals rw [here]
  · exact awaiting.blank.live
  · exact awaiting.parent

/-- Once the work on it is done, such an entry is modified. -/
theorem modified (awaiting : Awaiting s root source b) {q : Plot} {evaluated : Option Declaration}
    (here : t.node b.entry = (s.node b.entry).modifying b source q.root (.done ()) evaluated) : Modified t root ⟨b.key,b.entry,q⟩ := by
  refine ⟨?_,?_,⟨⟨b.key,source⟩,none⟩,b.plot.root,evaluated,rfl,congrArg Node.body here⟩
  · exact (congrArg Node.replacedBy here).trans awaiting.blank.live
  · exact (congrArg Node.parent here).trans awaiting.parent

/-- The work on an entry begins with the tree in its value slot, when no override is aimed at that; it ends when the entry's
modifiers were applied. -/
theorem begin (awaiting : Awaiting s root source b) (heading : Heading s root entries) (member : b.entry ∈ entries)
    (apart : root ≠ b.entry) (host : Host) (depth : Nat) (dotless : Dotless [b.key])
    (unreplaced : Overrides.replacement s.session.overrides [b.key] = none) :
    ∃ s', Advance (· = b.entry) (fun _ => False) s s' ∧ s'.nodes.size = s.nodes.size ∧ s.Faithful s' ∧
      s'.node b.entry = (s.node b.entry).modifying b source b.plot.root .active none ∧
      ∀ declaration y t t', Runs ((Calls.ofDepth host depth).declaration b.entry) s' (.ok declaration) t →
        Runs (Modify.applyAll (Calls.ofDepth host depth) b.plot.root declaration.modifiers) t (.ok y) t' → declaration.types = none →
        t'.node b.entry = (s.node b.entry).modifying b source y .active (some declaration) → t'.node root = s.node root →
        ∃ u, Runs ((Calls.ofDepth host (depth + 1)).settle b.entry) s (.ok ()) u ∧ Advance (· = b.entry) (fun _ => False) t' u ∧
          u.nodes.size = t'.nodes.size ∧ t'.Faithful u ∧
          u.node b.entry = (s.node b.entry).modifying b source y (.done ()) (some declaration) := by
  have old := heading.old
  have entry_old := awaiting.old
  obtain ⟨s₁,activate,size,active,after⟩ := setModification_run awaiting.body .active
  obtain ⟨s',entered⟩ : ∃ s', s' = s₁.inSession fun session => { session with busy := session.busy ++ [b.entry] } := ⟨_,rfl⟩
  have begun : Advance (· = b.entry) (fun _ => False) s s' := by
    rw [entered]
    exact (active.trans (.busy fun busy => busy ++ [b.entry]) fun _ _ within => within).mono (fun _ _ within => within) (by simp)
  have size' : s'.nodes.size = s.nodes.size := by rw [entered]; exact size
  have after' : s'.node b.entry = (s.node b.entry).modifying b source b.plot.root .active none := by
    rw [entered,Store.node_inSession,after]
    rfl
  have ready := awaiting.ready.frame begun.toFrame fun id holds same => awaiting.outside (same ▸ holds)
  have heading' := heading.same (begun.same root old apart)
  have kept : Runs (applyOverride b.plot.root) s' (.ok b.plot.root) s' := by
    refine applyOverride_none (awaiting.located heading' member after' ready.planted.blank.live ready.parent) (by omega) dotless
      (by simp) ?_
    rw [begun.counted.replacement]
    exact unreplaced
  refine ⟨s',begun,size',?_,after',fun declaration y t t' declared applied untyped here above => ?_⟩
  · rw [entered]
    exact (setModification_faithful activate).trans (.of_nodes rfl)
  obtain ⟨u,finish,ended,finished,u_after⟩ := setModification_run (congrArg Node.body here) (.done ())
  rw [here] at u_after
  have root_old : root < t'.nodes.size := (heading.same above).old
  have named := (awaiting.entry_runs (heading.same ((finished.same root root_old apart).trans above)) member u_after).2.choose_spec
  refine ⟨u.inSession fun session => { session with busy := Resolve.eraseLast session.busy b.entry },?_,
    (finished.trans (.busy fun busy => Resolve.eraseLast busy b.entry) fun _ _ within => within).mono (fun _ _ within => within) (by simp),
    ended,(setModification_faithful finish).trans (.of_nodes rfl),u_after⟩
  refine getNode_run.bind ?_
  rw [awaiting.body]
  refine (heading.entry_runs member awaiting.blank.live awaiting.parent).1.bind (activate.bind (guarded_run ?_))
  rw [← entered]
  refine kept.bind (declared.bind (applied.bind ?_))
  rw [untyped]
  refine finish.bind ?_
  split
  · exact named.map_ok
  · exact Runs.ok _ _

/-- An entry whose key declares nothing keeps the tree in its value slot. -/
theorem plain_run (awaiting : Awaiting s root .none b) (heading : Heading s root entries) (member : b.entry ∈ entries)
    (apart : root ≠ b.entry) (host : Host) (depth : Nat) (dotless : Dotless [b.key])
    (unreplaced : Overrides.replacement s.session.overrides [b.key] = none) :
    ∃ u, Runs ((Calls.ofDepth host (depth + 3)).settle b.entry) s (.ok ()) u ∧ Modified u root b ∧ Ready u b.entry b.plot ∧
      Advance (· = b.entry) (fun _ => False) s u ∧ s.Faithful u := by
  have old := heading.old
  have entry_old := awaiting.old
  obtain ⟨s',begun,size,faithful,after,finish⟩ := awaiting.begin heading member apart host (depth + 2) dotless unreplaced
  have heading' := heading.same (begun.same root old apart)
  have ready := awaiting.ready.frame begun.toFrame fun id holds same => awaiting.outside (same ▸ holds)
  obtain ⟨t,declared,_,advance,here⟩ := declaration_run host depth (congrArg Node.body after) (by simp [Store.NothingInherited])
    (awaiting.entry_runs heading' member after).1 (awaiting.located heading' member after ready.planted.blank.live ready.parent) (by omega)
  rw [after] at here
  obtain ⟨u,settle,ended,_,further,last⟩ := finish _ b.plot.root t t declared (Runs.ok _ _) rfl here (by
    rw [advance.same root heading'.old apart,begun.same root old apart])
  have whole : Advance (· = b.entry) (fun _ => False) s u := ((begun.trans advance fun _ _ within => within).trans ended
    fun _ _ within => within).mono (fun _ _ within => within) (by simp)
  refine ⟨u,settle,awaiting.modified last,awaiting.ready.frame whole.toFrame fun id holds same => awaiting.outside (same ▸ holds),whole,?_⟩
  exact (faithful.trans ((Faithful.ofDepth host (depth + 2)).declaration b.entry s' _ t trivial declared).2).trans further

end Awaiting

/-! ## Declared modifiers -/

namespace Expr

/-- The name that an expression is. -/
def name? : Expr → Option Text
  | .name n => some n
  | _ => none

/-- The name of a function and the text that an expression calls it with. -/
def textCall? : Expr → Option (Text × Text)
  | .call (.name f) [.positional (.literal (.text t))] => some (f,t)
  | _ => none

theorem eq_name {e : Expr} {n : Text} (is : e.name? = some n) : e = .name n := by
  unfold name? at is
  split at is
  · rw [Option.some.inj is]
  · cases is

theorem eq_textCall {e : Expr} {f t : Text} (is : e.textCall? = some (f,t)) : e = .call (.name f) [.positional (.literal (.text t))] := by
  unfold textCall? at is
  split at is
  · cases is
    rfl
  · cases is

end Expr

/-- A modifier that puts another node in a node's place. -/
theorem applyAll_run {calls : Calls} {m : ModifierObject} {x y : Nat} (apply : Runs (calls.apply m x) s (.ok (some y)) t)
    (live : (t.node y).replacedBy = none) : Runs (Modify.applyAll calls x [m]) s (.ok y) t := by
  rw [Modify.applyAll,List.foldlM_cons]
  refine (apply.bind (show Runs (current y) t (.ok (t.current y)) t from current_run)).bind ?_
  rw [Store.current_of_live live]
  exact Runs.ok _ _

/-- A source is read as one expression when something that tells this from all others is told of what was read. -/
theorem parseList_of {α : Type} {source : Text} {e : Expr} {a : α} (tell : Expr → Option α) (tells : ∀ e', tell e' = some a → e' = e)
    (read : (Grammar.parseList source).toOption.map (List.map tell) = some [some a]) : Grammar.parseList source = .ok [e] := by
  cases parsed : Grammar.parseList source with
  | error n =>
    rw [parsed] at read
    cases read
  | ok es =>
    rw [parsed] at read
    obtain ⟨e',rfl,here⟩ : ∃ e', es = [e'] ∧ tell e' = some a := by simpa [Except.toOption] using read
    rw [tells e' here]

variable {host : Host} {calls : Calls} {names : Pairs} {n : Text} {v : Value}

theorem Pairs.lookup_of_keys {pairs : Pairs} {keys : List Text} {key : Text} (same : Pairs.keys pairs = keys) (absent : key ∉ keys) :
    pairs.lookup key = none := by
  rw [List.lookup_eq_none_iff]
  intro p member
  have differs : key ≠ p.1 := fun here => absent (by rw [here,← same]; exact List.mem_map_of_mem member)
  simpa using differs

/-- The value of a name that only the session knows. -/
theorem eval_name_run (unknown : names.lookup n = none) (known : s.session.context.lookup n = some v) :
    Runs (Eval.eval (Expression.env host calls s.session.context names) [] (.name n)) s (.ok v) s := by
  have found : Eval.lookup (Expression.env host calls s.session.context names) [] n = .ok v := by
    simp [Eval.lookup,Expression.env,unknown,known]
  show Runs (check (Eval.lookup _ _ _)) s (.ok v) s
  rw [found]
  rfl

/-- A source of one expression declares the modifier that is its value. -/
theorem modifiers_run {source : Text} {e : Expr} {m : ModifierObject} (parsed : Grammar.parseList source = .ok [e])
    (short : Expression.guardLength s.session.settings.maxExpressionLength source = .ok source)
    (value : Runs (Eval.eval (Expression.env host calls s.session.context names) [] e) s (.ok (.object (.modifier m.id m.modifier))) t) :
    Runs (Expression.modifiers host calls source names) s (.ok [m]) t := by
  have read : Expression.read Grammar.parseList s.session.settings.maxExpressionLength source = .ok [e] := by
    rw [Expression.read,short,parsed]
    rfl
  have listed : Runs (Expression.evaluateList host calls source names) s (.ok [.object (.modifier m.id m.modifier)]) t := by
    refine getSession_run.bind ?_
    rw [read]
    refine (show Runs (check (.ok [e])) s (.ok [e]) s from rfl).bind (Runs.tryCatch_ok ?_)
    rw [Runs.mapM_cons]
    exact value.bind (Runs.ok _ _)
  exact listed.bind (Runs.ok _ _)

/-- The declaration of an entry whose key declares modifiers and no types, and that inherits nothing. -/
theorem declaration_modifiers_run {entry slot declared : Nat} {name source : Text} {modification : Progress Unit}
    {ms : List ModifierObject} {k : Nat} (depth : Nat)
    (body : (s.node entry).body = .entry ⟨⟨name,⟨none,some source⟩⟩,none⟩ slot declared none modification none)
    (bound : Runs (requireSession entry) s (.ok ()) s) (live : (s.node slot).replacedBy = none) {names : Pairs}
    (locals : Runs (Expression.locals slot) s (.ok names) (s.issued 2))
    (evaluated : Runs (Expression.modifiers host (Calls.ofDepth host depth) source names) (s.issued 2) (.ok ms) ((s.issued 2).issued k)) :
    ∃ t, Runs ((Calls.ofDepth host (depth + 1)).declaration entry) s (.ok ⟨none,ms⟩) t ∧ t.nodes.size = s.nodes.size ∧ s.Faithful t ∧
      Advance (fun id => id = entry) (fun _ => False) s t ∧
      t.node entry = { s.node entry with
        body := .entry ⟨⟨name,⟨none,some source⟩⟩,none⟩ slot declared none modification (some ⟨none,ms⟩) } := by
  have value : s.entryValue entry = slot := by
    rw [Store.entryValue,Store.slot,body]
    exact Store.current_of_live live
  obtain ⟨t,merge,size,advance,after⟩ := modifyBody_run (s := (s.issued 2).issued k) (old_of_entry body) (.declaring ⟨none,ms⟩)
  have run : Runs ((Calls.ofDepth host (depth + 1)).declaration entry) s (.ok ⟨none,ms⟩) t := by
    have own : Runs (Expression.declaration host (Calls.ofDepth host depth) ⟨none,some source⟩ names) (s.issued 2)
        (.ok ⟨none,ms⟩) ((s.issued 2).issued k) := by
      rw [Expression.declaration,Option.mapM_none]
      exact (Runs.ok none _).bind (evaluated.bind (Runs.ok _ _))
    refine getNode_run.bind ?_
    rw [body]
    refine bound.bind (get_run.bind ?_)
    rw [value]
    exact locals.bind (own.bind ((Runs.ok _ _).bind (merge.bind (Runs.ok _ _))))
  refine ⟨t,run,size,?_,?_,?_⟩
  · exact ((Faithful.ofDepth host (depth + 1)).declaration entry s _ t trivial run).2
  · have issued : Advance (· = entry) (fun _ => False) s ((s.issued 2).issued k) := .of_same Store.nodes_issued Store.session_issued
    exact (issued.trans advance fun _ _ within => within).mono (fun _ _ within => within) (by simp)
  · rw [after,Store.node_issued,Store.node_issued,body]
    rfl

/-- Where the key of an entry declares one modifier, the work on the entry comes to applying that to the tree in its value slot. -/
theorem Awaiting.modifier_run {root : Nat} {entries : List Nat} {source : Text} {b : Branch} {m : Modifier}
    (awaiting : Awaiting s root ⟨none,some source⟩ b) (heading : Heading s root entries) (member : b.entry ∈ entries)
    (apart : root ≠ b.entry) (bare : Key.isBare b.key = true) (unreplaced : Overrides.replacement s.session.overrides [b.key] = none)
    (host : Host) (depth : Nat)
    (evaluated : ∀ u names, Advance (· = b.entry) (fun _ => False) s u →
      Pairs.keys names = (["root","self","unit","ref","node"] : List Text) →
      ∃ id k, Runs (Expression.modifiers host (Calls.ofDepth host depth) source names) u (.ok [⟨id,m⟩]) (u.issued k)) :
    ∃ t id, Advance (· = b.entry) (fun _ => False) s t ∧ t.nodes.size = s.nodes.size ∧ s.Faithful t ∧
      t.node b.entry = (s.node b.entry).modifying b ⟨none,some source⟩ b.plot.root .active (some ⟨none,[⟨id,m⟩]⟩) ∧
      ∀ y u, Runs (Modify.apply host (Calls.ofDepth host depth) ⟨id,m⟩ b.plot.root) t (.ok (some y)) u → (u.node y).replacedBy = none →
        u.node b.entry = (s.node b.entry).modifying b ⟨none,some source⟩ y .active (some ⟨none,[⟨id,m⟩]⟩) → u.node root = s.node root →
        ∃ w, Runs ((Calls.ofDepth host (depth + 2)).settle b.entry) s (.ok ()) w ∧ Advance (· = b.entry) (fun _ => False) u w ∧
          u.Faithful w ∧ w.node b.entry = (s.node b.entry).modifying b ⟨none,some source⟩ y (.done ()) (some ⟨none,[⟨id,m⟩]⟩) := by
  have root_old := heading.old
  have entry_old := awaiting.old
  obtain ⟨s',begun,size,faithful,after,finish⟩ := awaiting.begin heading member apart host (depth + 1)
    (by simpa [Dotless] using Key.bare_dotless bare) unreplaced
  have heading' := heading.same (begun.same root root_old apart)
  have ready := awaiting.ready.frame begun.toFrame fun id holds same => awaiting.outside (same ▸ holds)
  have located := awaiting.located heading' member after ready.planted.blank.live ready.parent
  obtain ⟨names,locals,keys⟩ := locals_run located (by omega)
  have issued : Advance (· = b.entry) (fun _ => False) s' (s'.issued 2) := .of_same Store.nodes_issued Store.session_issued
  obtain ⟨id,k,modifiers⟩ := evaluated (s'.issued 2) names
    ((begun.trans issued fun _ _ here => here).mono (fun _ _ here => here) (by simp)) keys
  obtain ⟨t,declared,size',faithful',advance,here⟩ := declaration_modifiers_run depth (congrArg Node.body after)
    (awaiting.entry_runs heading' member after).1 located.live locals modifiers
  rw [after] at here
  have whole : Advance (· = b.entry) (fun _ => False) s t := (begun.trans advance fun _ _ here => here).mono (fun _ _ here => here) (by simp)
  refine ⟨t,id,whole,size'.trans size,faithful.trans faithful',here,fun y u applied live here' root_same => ?_⟩
  obtain ⟨w,settle,ended,_,further,last⟩ := finish _ y t u declared (applyAll_run applied live) rfl here' root_same
  exact ⟨w,settle,ended,further,last⟩

end ConfTree
