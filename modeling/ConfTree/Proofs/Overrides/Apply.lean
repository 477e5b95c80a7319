import ConfTree.Proofs.Planting

/-!
One override at work. Whatever the node of a path holds, after `applyOverride` a tree stands in its place
that was built from the override's value, or the tree that stood there if no override has the path; the
use is counted, and no other node changes but the container that holds the place (`applyOverride_run`).
-/
namespace ConfTree

open StoreM

/-- The overrides with their uses counted, each once or more whose path is among those used. -/
def Counted (used : List Text → Prop) (before after : List Override) : Prop :=
  ∃ count : List Text → Nat, (∀ path, 0 < count path ↔ used path) ∧
    after = before.map fun o => { o with uses := o.uses + count o.path }

namespace Counted

variable {used more : List Text → Prop} {before middle after : List Override}

theorem refl (overrides : List Override) : Counted (fun _ => False) overrides overrides :=
  ⟨fun _ => 0,by simp,by simp⟩

theorem trans (first : Counted used before middle) (second : Counted more middle after) :
    Counted (fun path => used path ∨ more path) before after := by
  obtain ⟨count,counts,rfl⟩ := first
  obtain ⟨count',counts',rfl⟩ := second
  refine ⟨fun path => count path + count' path,fun path => ?_,?_⟩
  · exact Nat.add_pos_iff_pos_or_pos.trans (or_congr (counts path) (counts' path))
  · simp [Override.path,Nat.add_assoc]

theorem congr (counted : Counted used before after) (same : ∀ path, used path ↔ more path) : Counted more before after :=
  (funext fun path => propext (same path) : used = more) ▸ counted

theorem replacement (counted : Counted used before after) : Overrides.replacement after = Overrides.replacement before := by
  obtain ⟨count,_,rfl⟩ := counted
  funext path
  have same : (fun o : Override => o.path == path) ∘ (fun o => { o with uses := o.uses + count o.path }) =
      fun o : Override => o.path == path := rfl
  rw [Overrides.replacement,List.find?_map,same,Option.map_map]
  rfl

theorem values (counted : Counted used before after) {p : Value → Prop} (all : ∀ o ∈ before, p o.value) :
    ∀ o ∈ after, p o.value := by
  obtain ⟨count,_,rfl⟩ := counted
  simpa using all

/-- The overrides never used afterwards are those never used before and not used meanwhile. -/
theorem unused (counted : Counted used before after) (fresh : ∀ o ∈ before, o.uses = 0) [DecidablePred used] :
    Overrides.unused after = (before.filter fun o => !decide (used o.path)).map Override.target := by
  obtain ⟨count,counts,rfl⟩ := counted
  rw [Overrides.unused,List.filter_map,List.map_map]
  have same : before.filter ((fun o : Override => o.uses == 0) ∘ fun o => { o with uses := o.uses + count o.path }) =
      before.filter fun o => !decide (used o.path) := by
    refine List.filter_congr fun o member => ?_
    have positive := counts o.path
    by_cases here : used o.path
    · have counted := positive.mpr here
      simp [fresh o member,here]
      omega
    · have uncounted : count o.path = 0 := by
        have := mt positive.mp here
        omega
      simp [fresh o member,here,uncounted]
  rw [same]
  rfl

end Counted

/-! ## What a step of work changes -/

/-- The session without what changes as its tree is worked on: the overrides, and the nodes at work. -/
def Session.lasting (session : Session) : Session := { session with overrides := [], busy := [] }

/-- From one store to another: nodes change only in a region or are new, overrides are only counted, and
what lasts of the session stays. -/
structure Advance (inside : NodeId → Prop) (used : List Text → Prop) (s t : Store) : Prop extends s.Frame inside t where
  lasting : t.session.lasting = s.session.lasting
  counted : Counted used s.session.overrides t.session.overrides

namespace Advance

variable {inside other : NodeId → Prop} {used more : List Text → Prop} {s t u : Store}

theorem settings (advance : Advance inside used s t) : t.session.settings = s.session.settings :=
  (congrArg Session.settings advance.lasting :)

theorem context (advance : Advance inside used s t) : t.session.context = s.session.context :=
  (congrArg Session.context advance.lasting :)

theorem top (advance : Advance inside used s t) : t.session.root = s.session.root :=
  (congrArg Session.root advance.lasting :)

theorem unreported (advance : Advance inside used s t) : t.session.isReported = s.session.isReported :=
  (congrArg Session.isReported advance.lasting :)

theorem refl (inside : NodeId → Prop) (s : Store) : Advance inside (fun _ => False) s s := ⟨.refl inside s,rfl,.refl _⟩

theorem trans (first : Advance inside used s t) (second : Advance other more t u)
    (covers : ∀ id : Nat, id < s.nodes.size → other id → inside id) :
    Advance inside (fun path => used path ∨ more path) s u where
  toFrame := first.toFrame.followed second.toFrame covers
  lasting := second.lasting.trans first.lasting
  counted := first.counted.trans second.counted

theorem mono (advance : Advance inside used s t) (covers : ∀ id : Nat, id < s.nodes.size → inside id → other id)
    (same : ∀ path, used path ↔ more path) : Advance other more s t where
  toFrame := advance.toFrame.mono covers
  lasting := advance.lasting
  counted := advance.counted.congr same

theorem update {x : Nat} {f : Node → Node} (within : inside x) : Advance inside (fun _ => False) s (s.update x f) :=
  ⟨.update within,rfl,.refl _⟩

end Advance

/-! ## Paths and places -/

/-- Parts of a name that hold no point. -/
def Dotless (path : List Text) : Prop := ∀ part ∈ path, ('.' : CodeUnit) ∉ part.units

theorem splitOn_join {path : List Text} (dotless : Dotless path) (nonempty : path ≠ []) :
    (Text.join "." path).splitOn '.' = path :=
  Text.splitOn_join dotless nonempty

theorem target_iff {o : Override} {path : List Text} (dotless : Dotless path) (nonempty : path ≠ []) :
    o.target = .join "." path ↔ o.path = path := by
  constructor
  · intro same
    rw [Override.path,same,splitOn_join dotless nonempty]
  · rintro rfl
    exact Overrides.target_eq_join o

variable {s t : Store} {path : List Text}

/-- Taking the override of a path counts its use. -/
theorem takeOverride_run (s : Store) (dotless : Dotless path) (nonempty : path ≠ []) :
    ∃ t, Runs (takeOverride (.join "." path)) s (.ok (Overrides.replacement s.session.overrides path)) t ∧
      t.nodes = s.nodes ∧ ∀ inside, Advance inside (· = path) s t := by
  have same : (fun o : Override => o.target == Text.join "." path) = fun o => o.path == path := by
    funext o
    rw [Bool.eq_iff_iff,beq_iff_eq,beq_iff_eq]
    exact target_iff dotless nonempty
  have counts : ∀ other : List Text, 0 < (if other = path then 1 else 0) ↔ other = path := by
    intro other
    split <;> simp_all
  rcases found : s.session.overrides.find? (fun o => o.path == path) with _ | o
  · refine ⟨s,?_,rfl,fun inside => ⟨.refl inside s,rfl,fun other => if other = path then 1 else 0,counts,?_⟩⟩
    · refine getSession_run.bind ?_
      simp only [same,found,Overrides.replacement]
      exact Runs.ok _ _
    · have absent := List.find?_eq_none.mp found
      refine (List.map_id' _).symm.trans (List.map_congr_left fun o member => ?_)
      have differs : o.path ≠ path := by simpa using absent o member
      simp [differs]
  · refine ⟨s.inSession fun session => { session with overrides := s.session.overrides.map fun o =>
        if (o.target == Text.join "." path) = true then { o with uses := o.uses + 1 } else o },?_,rfl,fun inside =>
        ⟨.inSession,rfl,fun other => if other = path then 1 else 0,counts,?_⟩⟩
    · refine getSession_run.bind ?_
      simp only [same,found,Overrides.replacement]
      exact modifySession_run.bind (Runs.ok _ _)
    · refine List.map_congr_left fun o _ => ?_
      rw [congrFun same o]
      by_cases here : o.path = path <;> simp [here]

/-- Nodes of a stretch that are not worked on. -/
def Plot.Idle (p : Plot) (s : Store) : Prop := ∀ id, p.Holds id → ¬ (s.node id).Over

/-- A tree that waits in a container to be worked on. -/
structure Ready (s : Store) (container : Nat) (p : Plot) : Prop where
  planted : Planted s p
  idle : p.Idle s
  parent : (s.node p.root).parent = some container

theorem Ready.frame {container : Nat} {p : Plot} {inside : NodeId → Prop} (ready : Ready s container p)
    (frame : s.Frame inside t) (apart : ∀ id, p.Holds id → ¬ inside id) : Ready t container p := by
  have same (id : Nat) (holds : p.Holds id) : t.node id = s.node id :=
    frame.same id (Nat.lt_of_le_of_lt holds.2 ready.planted.old) (apart id holds)
  refine ⟨ready.planted.frame frame.grows same,fun id holds => ?_,?_⟩
  · rw [same id holds]
    exact ready.idle id holds
  · rw [same p.root ⟨ready.planted.least,Nat.le_refl _⟩]
    exact ready.parent

/-- A node stands in a container whose body is `body` of the node; another node can be put there instead. -/
structure Place (s : Store) (container x : Nat) (body : Nat → Body) : Prop where
  apart : container ≠ x
  old : container < s.nodes.size
  live : (s.node container).replacedBy = none
  here : (s.node container).body = body x
  swap : ∀ (t : Store) (y : Nat), (t.node container).body = body x → Runs (replaceChild container x y) t (.ok ())
    ((t.update container fun n => { n with body := body y }).adopted container [y])

theorem idxOf?_append_cons {x : Nat} {before : List Nat} (after : List Nat) (fresh : x ∉ before) :
    (before ++ x :: after).idxOf? x = some before.length := by
  induction before with
  | nil => simp [List.idxOf?_cons]
  | cons y rest ih =>
    obtain ⟨differ,fresh⟩ : x ≠ y ∧ x ∉ rest := by simpa using fresh
    simp [List.idxOf?_cons,Ne.symm differ,ih fresh]

theorem place_item {container x : Nat} {before after declared : List Nat} (apart : container ≠ x) (old : container < s.nodes.size)
    (live : (s.node container).replacedBy = none) (fresh : x ∉ before)
    (here : (s.node container).body = .sequence (before ++ x :: after) declared true) :
    Place s container x fun y => .sequence (before ++ y :: after) declared true where
  apart := apart
  old := old
  live := live
  here := here
  swap t y body := by
    have swapped : (before ++ x :: after).set before.length y = before ++ y :: after := by simp
    refine getNode_run.bind ?_
    rw [body]
    simp only [idxOf?_append_cons after fresh,swapped]
    exact modifyNode_run.bind (adopt_run _ _ _)

theorem place_value {container x declared : Nat} {head : EntryHead} {renamed : Option Text} {modification : Progress Unit}
    {evaluated : Option Declaration} (apart : container ≠ x) (old : container < s.nodes.size)
    (live : (s.node container).replacedBy = none)
    (here : (s.node container).body = .entry head x declared renamed modification evaluated) :
    Place s container x fun y => .entry head y declared renamed modification evaluated where
  apart := apart
  old := old
  live := live
  here := here
  swap t y body := by
    refine getNode_run.bind ?_
    rw [body]
    simp only [bne_self_eq_false,Bool.false_eq_true,if_false]
    exact modifyNode_run.bind (adopt_run _ _ _)

/-! ## Replacing -/

theorem replaceWith_run {container x y level : Nat} (live : (s.node x).replacedBy = none) (differ : y ≠ x)
    (parent : (s.node x).parent = some container) (container_live : (s.node container).replacedBy = none)
    (swap : Runs (replaceChild container x y) s (.ok ()) t) (located : (t.handed x y).Located y path level)
    (room : level ≤ t.nodes.size) : Runs (replaceWith x y) s (.ok y) (t.handed x y) := by
  refine current_run.bind ?_
  rw [Store.current_of_live live,if_neg differ]
  refine getNode_run.bind ?_
  rw [parent]
  refine current_run.bind ?_
  rw [Store.current_of_live container_live]
  refine swap.bind ((handOn_run _ _ _).bind ?_)
  exact (Runs.map_ok (located.nameOf_run (by simpa [Store.handed] using room))).bind (Runs.ok _ _)

/-- A node in its place of which nothing was asked that another one in its place would be handed. -/
structure Node.Unasked (n : Node) : Prop where
  live : n.replacedBy = none
  shown : n.isHidden = false
  optional : n.isRequired = false
  untransformed : n.transforms = []

theorem Node.Blank.unasked {n : Node} (blank : n.Blank) : n.Unasked :=
  ⟨blank.live,blank.shown,blank.optional,blank.untransformed⟩

/-- A node that stood alone is the child of a container now, in the place of another one. -/
structure Put (s : Store) (container x y : Nat) (body : Body) (t : Store) : Prop where
  size : t.nodes.size = s.nodes.size
  session : t.session = s.session
  new : t.node y = { s.node y with parent := some container }
  around : t.node container = { s.node container with body }
  other : ∀ id, id ≠ container → id ≠ x → id ≠ y → t.node id = s.node id

namespace Put

variable {container x y : Nat} {body : Body}

theorem advance (put : Put s container x y body t) :
    Advance (fun id => (id = x ∨ id = container) ∨ id = y) (fun _ => False) s t where
  grows := Nat.le_of_eq put.size.symm
  same id _ apart := by
    obtain ⟨far,further⟩ := not_or.mp apart
    obtain ⟨differ,outside⟩ := not_or.mp far
    exact put.other id outside differ further
  lasting := by rw [put.session]
  counted := by rw [put.session]; exact .refl _

/-- A tree that was put in a place waits there. -/
theorem ready {q : Plot} (put : Put s container x q.root body t) (planted : Planted s q) (idle : q.Idle s)
    (apart : ∀ id, q.Holds id → id ≠ container ∧ id ≠ x) : Ready t container q where
  planted := by
    have blank := planted.blank
    refine planted.reroot (Nat.le_of_eq put.size.symm) (fun id holds differ => put.other id (apart id holds).1 (apart id holds).2 differ) ?_ ?_
    all_goals rw [put.new]
    exact ⟨blank.live,blank.shown,blank.optional,blank.untyped,blank.untransformed,blank.pending⟩
  idle id holds := by
    by_cases same : id = q.root
    · rw [same,put.new]
      exact idle q.root (same ▸ holds)
    · rw [put.other id (apart id holds).1 (apart id holds).2 same]
      exact idle id holds
  parent := by rw [put.new]

end Put

/-- Another node is put in a place of the session's tree. -/
theorem put_run {container x y level : Nat} {body : Nat → Body} (place : Place s container x body) (old : y < s.nodes.size)
    (differ : y ≠ x) (apart : y ≠ container) (unasked : (s.node x).Unasked) (parent : (s.node x).parent = some container)
    (room : level ≤ s.nodes.size) (relocate : ∀ t, Put s container x y (body y) t → t.Located y path level) :
    ∃ t, Runs (replaceWith x y) s (.ok y) t ∧ Put s container x y (body y) t := by
  have put : Put s container x y (body y) (s.swapped container x y (body y)) := by
    refine ⟨Store.size_swapped,Store.session_swapped,?_,Store.node_swapped_container s (body y) place.old place.apart (Ne.symm apart),
      fun id far further other => Store.node_swapped_other s (body y) far further other⟩
    rw [Store.node_swapped_new s (body y) old apart differ place.apart,unasked.shown,unasked.optional,unasked.untransformed]
    simp
  exact ⟨_,replaceWith_run unasked.live differ parent place.live (place.swap s y place.here) (relocate _ put) (by simpa using room),put⟩

/-- What an override leaves: a tree that waits in the place of the one before. -/
structure Overridden (s : Store) (container : Nat) (body : Nat → Body) (path : List Text) (p q : Plot) (t : Store) : Prop where
  ready : Ready t container q
  value : q.value = (Overrides.replacement s.session.overrides path).getD p.value
  place : (q.first = p.first ∧ q.root = p.root) ∨ s.nodes.size ≤ q.first
  around : t.node container = { s.node container with body := body q.root }
  advance : Advance (fun id => id = p.root ∨ id = container) (· = path) s t

variable {container level : Nat} {body : Nat → Body} {p : Plot} {settings : Settings} {v : Value}

/-- A tree that takes the place of the one before. -/
private theorem override_tree_run (path : List Text) (level : Nat) (place : Place s container p.root body) (ready : Ready s container p)
    (plain : v.isPlain settings = true) (name : Text) (tree : ∀ raw o literal, (s.node p.root).body = .scalar raw o →
      v.literal? ≠ some literal) (room : level ≤ s.nodes.size)
    (relocate : ∀ (t : Store) (y : Nat), s.Frame (fun id => id = p.root ∨ id = container) t → s.nodes.size ≤ y →
      t.node container = { s.node container with body := body y } → (t.node y).replacedBy = none →
      (t.node y).parent = some container → t.Located y path level) :
    ∃ (t : Store) (q : Plot), Runs (override p.root name v) s (.ok q.root) t ∧ Ready t container q ∧ q.value = v ∧
      s.nodes.size ≤ q.first ∧ t.node container = { s.node container with body := body q.root } ∧
      Advance (fun id => id = p.root ∨ id = container) (fun _ => False) s t := by
  obtain ⟨t,root,built,grown,planted,size,_,_⟩ := build_run plain name s
  have old := ready.planted.old
  have least : s.nodes.size ≤ root := planted.least
  have container_old := place.old
  -- The new tree as it stands alone, marked as an override.
  obtain ⟨marked,marked_eq⟩ : ∃ u, u = t.update root fun n => { n with isOverridden := true } := ⟨_,rfl⟩
  have marked_size : marked.nodes.size = root + 1 := by rw [marked_eq,Store.size_update,size]
  have marked_root : marked.node root = { t.node root with isOverridden := true } := by
    rw [marked_eq,Store.node_update_self (by omega)]
  have marked_other (id : Nat) (differ : id ≠ root) : marked.node id = t.node id := by
    rw [marked_eq,Store.node_update_ne differ]
  have before (id : Nat) (there : id < s.nodes.size) : marked.node id = s.node id := by
    rw [marked_other id (by omega),grown.node there]
  have marked_advance : Advance (fun id => id = p.root ∨ id = container) (fun _ => False) s marked := by
    refine ⟨⟨by omega,fun id there _ => before id there⟩,?_,?_⟩
    all_goals rw [marked_eq,Store.session_update,grown.session]
    exact .refl _
  have blank := planted.blank
  have alone : Planted marked ⟨s.nodes.size,root,v⟩ := planted.reroot (by omega) (fun id _ differ => marked_other id differ)
    (by rw [marked_root]; exact ⟨blank.live,blank.shown,blank.optional,blank.untyped,blank.untransformed,blank.pending⟩)
    (by rw [marked_root])
  have idle : Plot.Idle ⟨s.nodes.size,root,v⟩ marked := by
    intro id holds
    by_cases same : id = root
    · rw [same,marked_root]
      exact grown.idle root least
    · rw [marked_other id same]
      exact grown.idle id holds.1
  have place_marked : Place marked container p.root body :=
    ⟨place.apart,by omega,by rw [before _ container_old]; exact place.live,by rw [before _ container_old]; exact place.here,place.swap⟩
  have advanced (u : Store) (put : Put marked container p.root root (body root) u) :
      Advance (fun id => id = p.root ∨ id = container) (fun _ => False) s u :=
    (marked_advance.trans put.advance fun id there here => here.resolve_right (Nat.ne_of_lt (Nat.lt_of_lt_of_le there least))).mono (fun _ _ within => within) (by simp)
  have around (u : Store) (put : Put marked container p.root root (body root) u) :
      u.node container = { s.node container with body := body root } := by rw [put.around,before _ container_old]
  obtain ⟨u,replaced,put⟩ := put_run place_marked (y := root) (by omega) (by omega) (by omega)
    (by rw [before _ old]; exact ready.planted.blank.unasked) (by rw [before _ old]; exact ready.parent) (by omega) fun u put =>
      relocate u root (advanced u put).toFrame least (around u put) (by rw [put.new]; exact alone.blank.live) (by rw [put.new])
  refine ⟨u,⟨s.nodes.size,root,v⟩,?run,put.ready alone idle fun id holds => ?apart,rfl,Nat.le_refl _,around u put,advanced u put⟩
  case run =>
    have tail : Runs (do let y ← build v name; markOverridden y; replaceWith p.root y) s (.ok root) u := by
      refine built.bind ?_
      rw [markOverridden]
      exact modifyNode_run.bind (marked_eq ▸ replaced)
    refine getNode_run.bind ?_
    split
    · rename_i raw o literal here content
      exact absurd content (tree _ _ _ here)
    · exact tail
  case apart =>
    have new : s.nodes.size ≤ id := holds.1
    exact ⟨by omega,by omega⟩

/-- A scalar that takes the place of another one, in the same node. -/
private theorem override_scalar_run (place : Place s container p.root body) (ready : Ready s container p) (name : Text)
    {raw literal : Literal} {o : Option Literal} (here : (s.node p.root).body = .scalar raw o)
    (content : v.literal? = some literal) :
    ∃ (t : Store) (q : Plot), Runs (override p.root name v) s (.ok q.root) t ∧ Ready t container q ∧ q.value = v ∧
      q.first = p.first ∧ q.root = p.root ∧ t.node container = { s.node container with body := body q.root } ∧
      Advance (fun id => id = p.root ∨ id = container) (fun _ => False) s t := by
  have old := ready.planted.old
  have alone : p.first = p.root := by
    cases ready.planted with
    | scalar => rfl
    | list _ _ other => rw [other] at here; cases here
    | mapping _ _ other => rw [other] at here; cases here
  have blank := ready.planted.blank
  obtain ⟨t,changed⟩ : ∃ t, t = (s.update p.root fun n => { n with body := .scalar raw (some literal) }).update p.root
      fun n => { n with isOverridden := true } := ⟨_,rfl⟩
  have after : t.node p.root = { s.node p.root with body := .scalar raw (some literal), isOverridden := true } := by
    rw [changed,Store.node_update_self (by simpa using old),Store.node_update_self old]
  have size : t.nodes.size = s.nodes.size := by simp [changed]
  have advance : Advance (fun id => id = p.root ∨ id = container) (fun _ => False) s t := by
    rw [changed]
    exact ((Advance.update (.inl rfl)).trans (Advance.update (.inl rfl)) fun _ _ within => within).mono
      (fun _ _ within => within) (by simp)
  refine ⟨t,⟨p.first,p.root,v⟩,?run,⟨?planted,?idle,?parent⟩,rfl,rfl,rfl,?container,advance⟩
  case run =>
    refine getNode_run.bind ?_
    rw [here,content,changed]
    exact modifyNode_run.bind (modifyNode_run.bind (Runs.ok _ _))
  case planted =>
    rw [alone]
    refine @Planted.scalar _ _ _ raw (some literal) (by omega) ?_ ?_ content
    · rw [after]
      exact ⟨blank.live,blank.shown,blank.optional,blank.untyped,blank.untransformed,blank.pending⟩
    · rw [after]
  case idle =>
    rintro id ⟨lower,upper⟩
    obtain rfl : id = p.root := by
      have : p.first ≤ id := lower
      have : id ≤ p.root := upper
      omega
    rw [after]
    rintro ⟨w,done⟩
    have pending := blank.pending
    simp_all
  case parent =>
    rw [after]
    exact ready.parent
  case container =>
    rw [changed,Store.node_update_ne place.apart,Store.node_update_ne place.apart]
    have same : body p.root = (s.node container).body := place.here.symm
    show s.node container = { s.node container with body := body p.root }
    rw [same]

theorem Store.node_eq_of_nodes (same : t.nodes = s.nodes) (id : NodeId) : t.node id = s.node id := by
  rw [Store.node,Store.node,same]

/-- The override of a node's path, if there is one, is applied in the node's place. -/
theorem applyOverride_run (place : Place s container p.root body) (ready : Ready s container p)
    (located : s.Located p.root path level) (room : level ≤ s.nodes.size) (dotless : Dotless path) (nonempty : path ≠ [])
    (plain : ∀ o ∈ s.session.overrides, o.value.isPlain settings = true)
    (relocate : ∀ (t : Store) (y : Nat), s.Frame (fun id => id = p.root ∨ id = container) t → s.nodes.size ≤ y →
      t.node container = { s.node container with body := body y } → (t.node y).replacedBy = none →
      (t.node y).parent = some container → t.Located y path level) :
    ∃ (t : Store) (q : Plot), Runs (applyOverride p.root) s (.ok q.root) t ∧ Overridden s container body path p q t := by
  obtain ⟨t,take,nodes,taken⟩ := takeOverride_run s dotless nonempty
  have node := Store.node_eq_of_nodes nodes
  have start (final : Store) (y : NodeId)
      (rest : Runs ((Overrides.replacement s.session.overrides path).elim (pure p.root) (override p.root (.join "." path)))
        t (.ok y) final) :
      Runs (applyOverride p.root) s (.ok y) final := by
    refine current_run.bind ?_
    rw [Store.current_of_live ready.planted.blank.live]
    refine (located.requireSession_run room).bind ((located.nameOf_run room).bind (take.bind ?_))
    cases found : Overrides.replacement s.session.overrides path with
    | none | some =>
      rw [found] at rest
      exact rest
  have ready_then : Ready t container p := by
    refine ready.frame (taken fun _ => False).toFrame fun _ _ => id
  have place_then : Place t container p.root body :=
    ⟨place.apart,nodes ▸ place.old,by rw [node]; exact place.live,by rw [node]; exact place.here,place.swap⟩
  have relocate_then (u : Store) (y : Nat) (frame : t.Frame (fun id => id = p.root ∨ id = container) u)
      (new : t.nodes.size ≤ y) (around : u.node container = { t.node container with body := body y }) :=
    relocate u y ((taken _).toFrame.trans frame) (nodes ▸ new) (node container ▸ around)
  rcases found : Overrides.replacement s.session.overrides path with _ | v
  · rw [found] at start
    refine ⟨t,p,start t p.root (Runs.ok _ _),ready_then,by rw [found]; rfl,.inl ⟨rfl,rfl⟩,?_,taken _⟩
    rw [node]
    show s.node container = { s.node container with body := body p.root }
    rw [← place.here]
  · rw [found] at start
    have v_plain : v.isPlain settings = true := by
      obtain ⟨o,member,rfl⟩ := Option.map_eq_some_iff.mp found
      exact plain o (List.mem_of_find?_eq_some member)
    by_cases scalar : ∃ raw o literal, (t.node p.root).body = .scalar raw o ∧ v.literal? = some literal
    · obtain ⟨raw,o,literal,here,content⟩ := scalar
      obtain ⟨u,q,run,waits,value,first,root,around,advance⟩ := override_scalar_run place_then ready_then (.join "." path) here content
      refine ⟨u,q,start u q.root run,waits,by rw [found,value]; rfl,.inl ⟨first,root⟩,by rw [around,node],?_⟩
      exact ((taken _).trans advance fun _ _ within => within).mono (fun _ _ within => within) (by simp)
    · obtain ⟨u,q,run,waits,value,first,around,advance⟩ := override_tree_run path level place_then ready_then
        v_plain (.join "." path) (fun raw o literal here content => scalar ⟨raw,o,literal,here,content⟩) (nodes ▸ room) relocate_then
      refine ⟨u,q,start u q.root run,waits,by rw [found,value]; rfl,.inr (nodes ▸ first),by rw [around,node],?_⟩
      exact ((taken _).trans advance fun _ _ within => within).mono (fun _ _ within => within) (by simp)

end ConfTree

