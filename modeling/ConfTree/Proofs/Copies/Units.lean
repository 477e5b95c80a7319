import ConfTree.Proofs.Copies.Entry
import ConfTree.Proofs.Overrides.Resolve

/-!
Units. The first instance of a unit makes its template, each further one is planted from what that template was built from, whatever
became of the instances before (`instantiate_run`); an entry of the root that loads a unit waits with an instance of its own
(`loading_run`).
-/
namespace ConfTree

open StoreM

variable {settings : Settings} {s t u : Store} {unit : Text} {content : Value} {templates : List (Text × NodeId)}

/-! ## Templates -/

/-- The store with other templates. -/
def Store.serving (s : Store) (templates : List (Text × NodeId)) : Store := s.inSession fun session => { session with templates }

theorem Store.serving_self (same : s.session.templates = templates) : s.serving templates = s := by
  subst same
  rfl

theorem Advance.serving {inside : NodeId → Prop} {used : List Text → Prop} (advance : Advance inside used s t)
    (templates : List (Text × NodeId)) : Advance inside used (s.serving templates) (t.serving templates) where
  grows := advance.grows
  same := advance.same
  lasting := congrArg (fun session : Session => { session with templates }) advance.lasting
  counted := advance.counted

theorem Advance.unserved {inside : NodeId → Prop} {used : List Text → Prop} (advance : Advance inside used (s.serving templates) t) :
    s.Frame inside t := ⟨advance.grows,advance.same⟩

/-- A template of a unit is at hand, and was built from the unit's content. -/
structure Served (s : Store) (unit : Text) (content : Value) (τ : NodeId) : Prop where
  templates : s.session.templates = [(unit,τ)]
  built : ∃ c, s.BuiltFrom τ c ∧ Plants c content

/-- A session whose loader gives the content of a unit, and that has no template yet or just that of the unit. -/
structure Serves (s : Store) (unit : Text) (content : Value) : Prop where
  loader : ∃ load, s.session.loader = some load ∧ load unit = .ok content
  served : s.session.templates = [] ∨ ∃ τ, Served s unit content τ

theorem Served.advance {inside : NodeId → Prop} {used : List Text → Prop} {τ : NodeId} (served : Served s unit content τ)
    (advance : Advance inside used s t) (faithful : s.Faithful t) : Served t unit content τ := by
  obtain ⟨templates,c,built,plants⟩ := served
  exact ⟨(congrArg Session.templates advance.lasting :).trans templates,c,built.faithful faithful,plants⟩

theorem Serves.advance {inside : NodeId → Prop} {used : List Text → Prop} (serves : Serves s unit content)
    (advance : Advance inside used s t) (faithful : s.Faithful t) : Serves t unit content := by
  obtain ⟨⟨load,loader,loads⟩,none | ⟨τ,served⟩⟩ := serves
  all_goals refine ⟨⟨load,(congrArg Session.loader advance.lasting :).trans loader,loads⟩,?_⟩
  · exact .inl ((congrArg Session.templates advance.lasting :).trans none)
  · exact .inr ⟨τ,served.advance advance faithful⟩

theorem Advance.grown {inside : NodeId → Prop} (grown : Grown s t) : Advance inside (fun _ => False) s t :=
  ⟨grown.toFrame.mono fun _ _ none => none.elim,by rw [grown.session],by rw [grown.session]; exact .refl _⟩

/-- The template of a unit is made when there is none, and only then. -/
theorem template_run (serves : Serves s unit content) (plain : content.isPlain settings = true) (valid : UnitName.isValid unit = true) :
    ∃ t τ, Runs (template unit) s (.ok τ) t ∧ Served t unit content τ ∧ s.Faithful t ∧
      Advance (fun _ => False) (fun _ => False) (s.serving [(unit,τ)]) t := by
  have named : Runs (discard (orThrow (UnitName.validate unit))) s (.ok ()) s := by
    rw [UnitName.validate,if_pos valid]
    exact (Runs.ok _ _).map_ok
  obtain ⟨⟨load,loader,loads⟩,none | ⟨τ,served⟩⟩ := serves
  · obtain ⟨c,read,plants⟩ := buildable_plain plain unit
    obtain ⟨t,τ,run,grown,_⟩ := plants s
    have planted : Runs (build content unit) s (.ok τ) t := by
      rw [build,read]
      exact (Runs.ok _ _).bind run
    have unchanged : t.Faithful (t.serving [(unit,τ)]) := .of_nodes rfl
    have added : t.inSession (fun session => { session with templates := session.templates ++ [(unit,τ)] }) = t.serving [(unit,τ)] := by
      rw [Store.serving,Store.inSession,Store.inSession,grown.session,none]
      rfl
    refine ⟨t.serving [(unit,τ)],τ,?run,⟨rfl,c,(builtFrom_of_plant run).faithful unchanged,plants⟩,?faithful,(Advance.grown grown).serving _⟩
    case run =>
      refine named.bind (getSession_run.bind ?_)
      rw [none]
      refine getSession_run.bind ?_
      rw [loader]
      simp only [loads]
      refine planted.bind (modifySession_run.bind ?_)
      rw [added]
      exact Runs.ok _ _
    case faithful => exact (Faithful.edited.plant c (Content.heads_any c) s _ t trivial run).2.trans unchanged
  · refine ⟨s,τ,?_,served,.of_nodes rfl,?_⟩
    · refine named.bind (getSession_run.bind ?_)
      rw [served.templates]
      simp only [List.lookup_cons,beq_self_eq_true]
      exact Runs.ok _ _
    · rw [Store.serving_self served.templates]
      exact .refl _ s

/-! ## Instances -/

/-- A node that was built from some content is copied by planting that content. -/
theorem copy_run {id root : Nat} {c : Content} (built : s.BuiltFrom id c) (run : Runs (plant c) s (.ok root) t) :
    Runs (copy id) s (.ok root) t := by
  refine get_run.bind ?_
  rw [built.content]
  refine run.bind ?_
  cases body : (s.node id).body with
  | entry =>
    cases built with
    | scalar _ same | list _ same | mapping _ same => rw [body] at same; cases same
  | _ => exact Runs.ok _ _

/-- An instance of a unit stands alone, planted from the unit's content. -/
theorem instantiate_run (serves : Serves s unit content) (plain : content.isPlain settings = true) (valid : UnitName.isValid unit = true) :
    ∃ t q τ, Runs (instantiate unit) s (.ok q.root) t ∧ Served t unit content τ ∧ Planted t q ∧ q.Idle t ∧ q.value = content ∧
      s.nodes.size ≤ q.first ∧ Advance (fun _ => False) (fun _ => False) (s.serving [(unit,τ)]) t := by
  obtain ⟨t,τ,found,⟨templates,c,built,plants⟩,_,advance⟩ := template_run serves plain valid
  obtain ⟨u,root,run,grown,planted,size,_,_⟩ := plants t
  have grows : s.nodes.size ≤ t.nodes.size := advance.grows
  have least : t.nodes.size ≤ root := planted.least
  have blank := planted.blank
  have here : (u.update root fun n => { n with unit := some unit }).node root = { u.node root with unit := some unit } :=
    Store.node_update_self planted.old
  have other (id : Nat) (differ : id ≠ root) : (u.update root fun n => { n with unit := some unit }).node id = u.node id :=
    Store.node_update_ne differ
  have faithful : t.Faithful (u.update root fun n => { n with unit := some unit }) :=
    (Faithful.edited.plant c (Content.heads_any c) t _ u trivial run).2.trans (.update rfl)
  have marked : Advance (fun id : Nat => t.nodes.size ≤ id) (fun _ => False) t (u.update root fun n => { n with unit := some unit }) :=
    ((Advance.grown grown).trans (.update least) fun _ _ within => within).mono (fun _ _ within => within) (by simp)
  refine ⟨u.update root fun n => { n with unit := some unit },⟨t.nodes.size,root,content⟩,τ,?run,
    Served.advance ⟨templates,c,built,plants⟩ marked faithful,?planted,?idle,rfl,grows,?advance⟩
  case run => exact found.bind ((copy_run built run).bind (modifyNode_run.bind (Runs.ok _ _)))
  case planted =>
    refine planted.reroot (by simp) (fun id _ differ => other id differ) ?_ ?_
    all_goals rw [here]
    exact ⟨blank.live,blank.shown,blank.optional,blank.untyped,blank.untransformed,blank.pending⟩
  case idle =>
    intro id holds
    by_cases same : id = root
    · rw [same,here]
      exact grown.idle root least
    · rw [other id same]
      exact grown.idle id holds.1
  case advance =>
    have kept : Advance (fun _ => False) (fun _ => False) t (u.update root fun n => { n with unit := some unit }) :=
      marked.mono (fun id old new => Nat.not_le.mpr old new) fun _ => Iff.rfl
    exact (advance.trans kept fun _ _ none => none).mono (fun _ _ none => none) (by simp)

/-! ## Loading -/

variable {root entry x : Nat} {entries : List Nat} {b : Branch}

/-- The value of an entry of the root stands in no unit, when none of the three is the instance of one. -/
theorem Heading.checkNesting_run (heading : Heading s root entries) (live : (s.node entry).replacedBy = none)
    (parent : (s.node entry).parent = some root) (x_live : (s.node x).replacedBy = none) (x_parent : (s.node x).parent = some entry)
    (outside : ∀ id ∈ [root,entry,x], (s.node id).unit = none) (room : 2 ≤ s.nodes.size) (unit : Text) :
    Runs (Modify.checkNesting x unit) s (.ok ()) s := by
  have alone : s.enclosingUnits x = some [] := by
    obtain ⟨n,size⟩ : ∃ n, s.nodes.size + 1 = n + 3 := ⟨s.nodes.size - 2,by omega⟩
    have top : s.above? root = none := by rw [Store.above?,Store.current_of_live heading.live,heading.top]; rfl
    have above : s.above? entry = some root := by
      rw [Store.above?,Store.current_of_live live,parent,Option.map_some,Store.current_of_live heading.live]
    have above' : s.above? x = some entry := by
      rw [Store.above?,Store.current_of_live x_live,x_parent,Option.map_some,Store.current_of_live live]
    simp only [List.mem_cons,List.not_mem_nil,or_false,forall_eq_or_imp,forall_eq] at outside
    obtain ⟨root_outside,entry_outside,x_outside⟩ := outside
    rw [Store.enclosingUnits,size,Store.enclosingUnitsFrom,Store.current_of_live x_live,x_outside,above']
    dsimp only
    rw [Store.enclosingUnitsFrom,Store.current_of_live live,entry_outside,above]
    dsimp only
    rw [Store.enclosingUnitsFrom,Store.current_of_live heading.live,root_outside,top]
  refine get_run.bind ?_
  rw [alone]
  exact Runs.ok _ _

/-- Loading a unit puts an instance of it in the place of the scalar that names it. -/
theorem load_run {replacement : List Text → Option Value} {source : DeclarationSource} {evaluated : Option Declaration}
    (serves : Serves s unit content) (plain : content.isPlain settings = true) (valid : UnitName.isValid unit = true)
    (named : unit.isEmpty = false) (literal : settings.isLiteral unit = true) (heading : Heading s root entries) (member : b.entry ∈ entries)
    (root_apart : root ≠ b.entry ∧ ¬ b.plot.Holds root) (ready : Ready s b.entry b.plot) (value : b.plot.value = .text unit)
    (apart : ¬ b.plot.Holds b.entry) (live : (s.node b.entry).replacedBy = none) (parent : (s.node b.entry).parent = some root)
    (body : (s.node b.entry).body = .entry ⟨⟨b.key,source⟩,none⟩ b.plot.root b.plot.root none .active evaluated)
    (outside : ∀ id ∈ [root,b.entry,b.plot.root], (s.node id).unit = none) (bare : Key.isBare b.key = true)
    (informed : Informed settings replacement s) (host : Host) (depth : Nat) :
    ∃ t q τ, Runs (Modify.load (Calls.ofDepth host (depth + 2)) b.plot.root none []) s (.ok (some q.root)) t ∧ Ready t b.entry q ∧
      q.value = content ∧ s.nodes.size ≤ q.first ∧ Served t unit content τ ∧
      t.node b.entry = { s.node b.entry with body := .entry ⟨⟨b.key,source⟩,none⟩ q.root b.plot.root none .active evaluated } ∧
      Advance (fun id => id = b.plot.root ∨ id = b.entry) (fun _ => False) (s.serving [(unit,τ)]) t := by
  have root_old := heading.old
  have entry_old := old_of_entry body
  have x_old := ready.planted.old
  have least := ready.planted.least
  have root_holds : b.plot.Holds b.plot.root := ⟨least,Nat.le_refl _⟩
  have x_apart : b.entry ≠ b.plot.root ∧ root ≠ b.plot.root := ⟨fun same => apart (same ▸ root_holds),fun same => root_apart.2 (same ▸ root_holds)⟩
  have room : 2 + (b.plot.root + 1 - b.plot.first) ≤ s.nodes.size := by
    have entry_apart : b.entry < b.plot.first ∨ b.plot.root < b.entry := by
      by_contra within
      exact apart ⟨by omega,by omega⟩
    have above_apart : root < b.plot.first ∨ b.plot.root < root := by
      by_contra within
      exact root_apart.2 ⟨by omega,by omega⟩
    omega
  have dotless : Dotless [b.key] := by simpa [Dotless] using Key.bare_dotless bare
  have start : Start settings replacement [b.key] 2 b.plot s := ⟨ready.planted,ready.idle,
    heading.anchored member live parent body ready.parent ⟨root_apart.2,apart⟩,room,by rw [value]; exact literal,dotless,informed⟩
  obtain ⟨raw,override,scalar,resolve⟩ := scalar_run host depth start (by rw [value]; rfl)
  -- The name is read off the scalar, which changes nothing but its own value.
  obtain ⟨s₁,s₁_eq⟩ : ∃ s₁, s₁ = (s.begun b.plot.root).ended b.plot.root b.plot.value := ⟨_,rfl⟩
  rw [← s₁_eq,value] at resolve
  have resolved : Advance (· = b.plot.root) (fun _ => False) s s₁ := by
    have begun : Advance (· = b.plot.root) (fun _ => False) s (s.begun b.plot.root) := .begun rfl
    have ended : Advance (· = b.plot.root) (fun _ => False) (s.begun b.plot.root) s₁ := by
      rw [s₁_eq]
      exact .ended _ rfl
    exact (begun.trans ended fun _ _ here => here).mono (fun _ _ here => here) (by simp)
  have size : s₁.nodes.size = s.nodes.size := by rw [s₁_eq]; simp [Store.begun,Store.ended]
  have x_here : s₁.node b.plot.root = { s.node b.plot.root with resolution := .done b.plot.value } := by
    rw [s₁_eq,node_ended _ (by simpa [Store.begun] using x_old),node_begun x_old]
  have entry_here : s₁.node b.entry = s.node b.entry := resolved.same b.entry entry_old x_apart.1
  have heading₁ := heading.same (resolved.same root root_old x_apart.2)
  have live₁ : (s₁.node b.plot.root).replacedBy = none := by rw [x_here]; exact ready.planted.blank.live
  have parent₁ : (s₁.node b.plot.root).parent = some b.entry := by rw [x_here]; exact ready.parent
  have located : s₁.Located b.plot.root [b.key] 2 := heading₁.value member (by rw [entry_here,live]) (by rw [entry_here,parent])
    (by rw [entry_here,body]) live₁ parent₁
  have clear := heading₁.checkNesting_run (by rw [entry_here,live]) (by rw [entry_here,parent]) live₁ parent₁ (by
    simp only [List.mem_cons,List.not_mem_nil,or_false,forall_eq_or_imp,forall_eq] at outside ⊢
    rw [resolved.same root root_old x_apart.2,entry_here,x_here]
    exact outside) (by omega) unit
  have serves₁ : Serves s₁ unit content := serves.advance resolved
    ((Faithful.ofDepth host (depth + 2)).resolve b.plot.root s _ s₁ trivial resolve).2
  obtain ⟨s₂,q,τ,instantiated,served,planted,idle,content_eq,new,advance⟩ := instantiate_run serves₁ plain valid
  have grows : s₁.nodes.size ≤ s₂.nodes.size := advance.grows
  have kept (id : Nat) (old : id < s.nodes.size) : s₂.node id = s₁.node id := advance.same id (show id < s₁.nodes.size by omega) fun none => none
  have q_least := planted.least
  have q_old := planted.old
  have place : Place s₂ b.entry b.plot.root fun y => .entry ⟨⟨b.key,source⟩,none⟩ y b.plot.root none .active evaluated :=
    place_value x_apart.1 (by omega) (by rw [kept _ entry_old,entry_here,live]) (by rw [kept _ entry_old,entry_here,body])
  have blank := ready.planted.blank
  obtain ⟨t,replaced,put⟩ := put_run place (y := q.root) q_old (by omega) (by omega)
    (by rw [kept _ x_old,x_here]; exact ⟨blank.live,blank.shown,blank.optional,blank.untransformed⟩)
    (by rw [kept _ x_old,parent₁]) (show 2 ≤ s₂.nodes.size by omega) fun t put => by
      have above := put.other root root_apart.1 x_apart.2 (by omega)
      refine show t.Located q.root [b.key] 2 from (heading₁.same (above.trans (kept root root_old))).value member ?_ ?_ (congrArg Node.body put.around) ?_ ?_
      · rw [put.around,kept _ entry_old,entry_here,live]
      · rw [put.around,kept _ entry_old,entry_here,parent]
      · rw [put.new]
        exact planted.blank.live
      · rw [put.new]
  refine ⟨t,q,τ,?run,put.ready planted idle fun id holds => ?apart,content_eq,by omega,
    served.advance put.advance ?faithful,by rw [put.around,kept _ entry_old,entry_here],?advance⟩
  case run =>
    have scalar_kind : s.kind b.plot.root = .scalar := by rw [Store.kind,Node.kind,scalar]; rfl
    refine kindOf_run.bind ?_
    rw [scalar_kind]
    simp only [ne_eq,not_true_eq_false,if_false]
    have name : Runs (orThrow (Modify.unitName none (.text unit))) s₁ (.ok unit) s₁ := by
      rw [Modify.unitName,named]
      exact Runs.ok _ _
    refine resolve.bind (name.bind (clear.bind ((located.requireSession_run (by omega)).bind (instantiated.bind ?_))))
    exact (Runs.ok _ _).bind (replaced.bind (Runs.ok _ _))
  case apart =>
    have := holds.1
    exact ⟨by omega,by omega⟩
  case faithful => exact (Faithful.edited.replaceWith _ _ s₂ _ t trivial replaced).2
  case advance =>
    have instanced : Advance (fun id => id = b.plot.root ∨ id = b.entry) (fun _ => False) (s.serving [(unit,τ)]) s₂ :=
      (((resolved.serving [(unit,τ)]).mono (fun _ _ here => .inl here) fun _ => Iff.rfl).trans advance fun _ _ none => none.elim).mono
        (fun _ _ here => here) (by simp)
    refine (instanced.trans put.advance fun id old here => here.resolve_right ?_).mono (fun _ _ here => here) (by simp)
    have old : id < s.nodes.size := old
    exact Nat.ne_of_lt (by omega)

/-- Modifying an entry whose key declares that a unit is loaded. -/
theorem loading_run {replacement : List Text → Option Value} {source n : Text} {i : Identity}
    (serves : Serves s unit content) (plain : content.isPlain settings = true) (valid : UnitName.isValid unit = true)
    (named : unit.isEmpty = false) (literal : settings.isLiteral unit = true) (awaiting : Awaiting s root ⟨none,some source⟩ b)
    (parsed : Grammar.parseList source = .ok [.name n]) (short : Expression.guardLength settings.maxExpressionLength source = .ok source)
    (known : s.session.context.lookup n = some (.object (.modifier i (.load none none))))
    (unreserved : n ∉ (["root","self","unit","ref","node"] : List Text)) (heading : Heading s root entries) (member : b.entry ∈ entries)
    (root_apart : root ≠ b.entry ∧ ¬ b.plot.Holds root) (value : b.plot.value = .text unit)
    (outside : ∀ id ∈ [root,b.entry,b.plot.root], (s.node id).unit = none) (bare : Key.isBare b.key = true)
    (informed : Informed settings replacement s) (unreplaced : replacement [b.key] = none) (host : Host) (depth : Nat) :
    ∃ t q τ, Runs ((Calls.ofDepth host (depth + 4)).settle b.entry) s (.ok ()) t ∧ Modified t root ⟨b.key,b.entry,q⟩ ∧ Ready t b.entry q ∧
      q.value = content ∧ s.nodes.size ≤ q.first ∧ Served t unit content τ ∧
      Advance (fun id => id = b.plot.root ∨ id = b.entry) (fun _ => False) (s.serving [(unit,τ)]) t := by
  have root_old := heading.old
  have least := awaiting.ready.planted.least
  have x_apart : root ≠ b.plot.root := fun same => root_apart.2 (same ▸ ⟨least,Nat.le_refl _⟩)
  obtain ⟨s₁,id,advance,size,faithful,after,finish⟩ := awaiting.modifier_run (m := .load none none) heading member root_apart.1 bare
    (informed.in_overrides ▸ unreplaced) host (depth + 2) fun u names advance keys => ⟨i,0,
      modifiers_run (m := ⟨i,.load none none⟩) parsed (by rw [advance.settings,informed.in_settings]; exact short)
        (eval_name_run (Pairs.lookup_of_keys keys unreserved) (by rw [advance.context]; exact known))⟩
  have root_same := advance.same root root_old root_apart.1
  have entry_old := awaiting.old
  have x_same := advance.same b.plot.root awaiting.ready.planted.old awaiting.apart
  obtain ⟨s₂,q,τ,load,ready,content_eq,new,served,around,advance₂⟩ := load_run (serves.advance advance faithful) plain valid named literal
    (heading.same root_same) member root_apart (awaiting.ready.frame advance.toFrame fun id holds here => awaiting.outside (here ▸ holds))
    value awaiting.outside (by rw [after]; exact awaiting.blank.live) (by rw [after]; exact awaiting.parent) (congrArg Node.body after)
    (by
      simp only [List.mem_cons,List.not_mem_nil,or_false,forall_eq_or_imp,forall_eq] at outside ⊢
      rw [root_same,x_same,after]
      exact outside) bare (informed.advance advance) host depth
  rw [after] at around
  have root_last : s₂.node root = s.node root := by
    have old : root < (s₁.serving [(unit,τ)]).nodes.size := size ▸ root_old
    rw [advance₂.same root old fun here => here.elim x_apart root_apart.1]
    exact root_same
  obtain ⟨t,settle,ended,further,last⟩ := finish q.root s₂ load ready.planted.blank.live around root_last
  refine ⟨t,q,τ,settle,awaiting.modified last,ready.frame ended.toFrame fun id holds here => ?_,content_eq,size ▸ new,
    served.advance ended further,?_⟩
  · have := holds.1
    have here : id = b.entry := here
    omega
  · exact ((((advance.serving [(unit,τ)]).mono (fun _ _ here => .inr here) fun _ => Iff.rfl).trans advance₂ fun _ _ within => within).trans
      ended fun _ _ here => .inr here).mono (fun _ _ within => within) (by simp)

end ConfTree
