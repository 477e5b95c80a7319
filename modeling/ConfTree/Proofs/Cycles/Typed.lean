import ConfTree.Proofs.Discipline.Editing
import ConfTree.Proofs.Cycles.Attended
import ConfTree.Proofs.Termination.Work

/-!
Typed content. The keys of typed content declare no modifiers, and as types only names and literals. So the
declaration of an entry can be evaluated without any other work on the tree: where all content is typed
(`Store.Typed`), settling an entry does what it would do alone (`Resolve.settle_alone`), and leaves all content
typed (`Typed.settle_keeps`).
-/
namespace ConfTree

open StoreM

/-! ## Typed content -/

mutual

/-- Whether an expression is made of names and literals, listed or not. -/
def Expr.isTyped : Expr → Bool
  | .literal _ => true
  | .name _ => true
  | .list items => Item.areTyped items
  | _ => false

def Item.areTyped : List Item → Bool
  | [] => true
  | .one e :: rest => e.isTyped && Item.areTyped rest
  | .spread _ :: _ => false

end

/-- Whether a source lists names and literals only, if it can be read. -/
def Text.isTyped (source : Text) : Bool :=
  match Grammar.parseList source with
  | .ok es => es.all Expr.isTyped
  | .error _ => true

/-- Whether a raw key declares no modifiers, and as types only names and literals, if it can be read. -/
def Key.isTyped (raw : Text) : Bool :=
  match parse raw with
  | .ok key => key.source.modifiers.isNone && key.source.types.all Text.isTyped
  | .error _ => true

theorem Key.isUnmodified_of_isTyped {raw : Text} (typed : Key.isTyped raw = true) : Key.isUnmodified raw = true := by
  rw [Key.isTyped] at typed
  rw [Key.isUnmodified]
  cases parsed : Key.parse raw with
  | error issue => rfl
  | ok key =>
    rw [parsed] at typed
    exact (Bool.and_eq_true_iff.mp typed).1

namespace Value

mutual

/-- Whether all keys of mappings in the value are typed. -/
def isTyped : Value → Bool
  | .list _ items => areTyped items
  | .mapping _ pairs => pairsTyped pairs
  | _ => true

def areTyped : List Value → Bool
  | [] => true
  | v :: rest => v.isTyped && areTyped rest

def pairsTyped : Pairs → Bool
  | [] => true
  | (raw,v) :: rest => Key.isTyped raw && v.isTyped && pairsTyped rest

end

mutual

/-- Typed values declare no modifiers. -/
theorem isUnmodified_of_isTyped (v : Value) (typed : v.isTyped = true) : v.isUnmodified = true := by
  cases v with
  | list id items => exact areUnmodified_of_areTyped items typed
  | mapping id pairs => exact pairsUnmodified_of_pairsTyped pairs typed
  | _ => rfl

theorem areUnmodified_of_areTyped (vs : List Value) (typed : areTyped vs = true) : areUnmodified vs = true := by
  cases vs with
  | nil => rfl
  | cons v rest =>
    obtain ⟨here,there⟩ := Bool.and_eq_true_iff.mp typed
    exact Bool.and_eq_true_iff.mpr ⟨isUnmodified_of_isTyped v here,areUnmodified_of_areTyped rest there⟩

theorem pairsUnmodified_of_pairsTyped (pairs : Pairs) (typed : pairsTyped pairs = true) : pairsUnmodified pairs = true := by
  cases pairs with
  | nil => rfl
  | cons p rest =>
    obtain ⟨raw,v⟩ := p
    obtain ⟨here,there⟩ := Bool.and_eq_true_iff.mp typed
    obtain ⟨bare,inside⟩ := Bool.and_eq_true_iff.mp here
    exact Bool.and_eq_true_iff.mpr ⟨Bool.and_eq_true_iff.mpr
      ⟨Key.isUnmodified_of_isTyped bare,isUnmodified_of_isTyped v inside⟩,pairsUnmodified_of_pairsTyped rest there⟩

end

end Value
/-- The key of an entry declares no modifiers, and as types only names and literals; and the entry inherits none. -/
structure EntryHead.Typed (head : EntryHead) : Prop where
  modifiers : head.key.source.modifiers = none
  types : ∀ source, head.key.source.types = some source → source.isTyped = true
  inherited : head.inherited = none

namespace Content

theorem readKey_typed {path raw : Text} {key : Key} (read : readKey path raw = .ok key) (typed : Key.isTyped raw = true) :
    EntryHead.Typed ⟨key,none⟩ := by
  rw [readKey] at read
  rw [Key.isTyped] at typed
  cases parsed : Key.parse raw with
  | error issue => rw [parsed] at read; cases read
  | ok key' =>
    rw [parsed] at read typed
    cases read
    obtain ⟨bare,types⟩ := Bool.and_eq_true_iff.mp typed
    exact ⟨Option.isNone_iff_eq_none.mp bare,fun source listed => by rwa [listed] at types,rfl⟩

mutual

/-- What is read from a typed value is typed. -/
theorem ofValue_typed (v : Value) (typed : v.isTyped = true) {path : Text} {c : Content} (read : ofValue path v = .ok c) : c.Heads EntryHead.Typed := by
  cases v with
  | list id items =>
    rw [ofValue] at read
    obtain ⟨cs,inner,rfl⟩ := ok_of_map read
    exact .list (ofItems_typed items (by rwa [Value.isTyped] at typed) inner)
  | mapping id pairs =>
    rw [ofValue] at read
    obtain ⟨entries,inner,rfl⟩ := ok_of_map read
    obtain ⟨heads,values⟩ := ofPairs_typed pairs (by rwa [Value.isTyped] at typed) inner
    exact .mapping heads values
  | number n =>
    rw [ofValue] at read
    split at read
    · cases read
      exact .scalar _
    · cases read
  | null | bool b | text t =>
    rw [ofValue] at read
    cases read
    exact .scalar _
  | _ =>
    rw [ofValue] at read
    cases read

theorem ofItems_typed (items : List Value) (typed : Value.areTyped items = true) {path : Text} {index : Nat} {cs : List Content}
    (read : ofItems path index items = .ok cs) : ∀ c ∈ cs, c.Heads EntryHead.Typed := by
  cases items with
  | nil =>
    rw [ofItems] at read
    cases read
    exact nofun
  | cons v rest =>
    rw [Value.areTyped] at typed
    obtain ⟨here,there⟩ := Bool.and_eq_true_iff.mp typed
    rw [ofItems] at read
    obtain ⟨c,first,read⟩ := ok_of_bind read
    obtain ⟨more,later,read⟩ := ok_of_bind read
    cases read
    exact List.forall_mem_cons.mpr ⟨ofValue_typed v here first,ofItems_typed rest there later⟩

theorem ofPairs_typed (pairs : Pairs) (typed : Value.pairsTyped pairs = true) {path : Text} {seen : List (Text × Text)}
    {entries : List (EntryHead × Content)} (read : ofPairs path seen pairs = .ok entries) :
    (∀ p ∈ entries, p.1.Typed) ∧ ∀ p ∈ entries, p.2.Heads EntryHead.Typed := by
  cases pairs with
  | nil =>
    rw [ofPairs] at read
    cases read
    exact ⟨nofun,nofun⟩
  | cons p rest =>
    obtain ⟨raw,v⟩ := p
    rw [Value.pairsTyped] at typed
    obtain ⟨here,there⟩ := Bool.and_eq_true_iff.mp typed
    obtain ⟨bare,inside⟩ := Bool.and_eq_true_iff.mp here
    rw [ofPairs] at read
    obtain ⟨key,named,read⟩ := ok_of_bind read
    obtain ⟨_,_,read⟩ := ok_of_bind read
    obtain ⟨c,first,read⟩ := ok_of_bind read
    obtain ⟨more,later,read⟩ := ok_of_bind read
    cases read
    obtain ⟨heads,values⟩ := ofPairs_typed rest there later
    exact ⟨List.forall_mem_cons.mpr ⟨readKey_typed named bare,heads⟩,
      List.forall_mem_cons.mpr ⟨ofValue_typed v inside first,values⟩⟩

end

end Content

/-! ## Typed stores -/

/-- The body is no entry, or one that is typed and whose declaration, once evaluated, has no modifiers. -/
def Body.Typed : Body → Prop
  | .entry head _ _ _ _ evaluated => head.Typed ∧ ∀ d, evaluated = some d → d.modifiers = []
  | _ => True

/-- All entries are typed, and all that overrides put in their places. -/
structure Store.Typed (s : Store) : Prop where
  bodies : ∀ id, (s.node id).body.Typed
  overrides : ∀ o ∈ s.session.overrides, ∀ c, Content.ofValue o.target o.value = .ok c → c.Heads EntryHead.Typed

/-- The discipline of leaving all content typed. -/
def Discipline.typed : Discipline where
  Fits := Store.Typed
  Reaches _ _ := True
  refl _ := trivial
  trans _ _ _ _ _ := trivial
  alike _ _ alike typed := ⟨⟨fun id => by rw [alike.node]; exact typed.bodies id,by rw [alike.session]; exact typed.overrides⟩,trivial⟩

namespace Store.Typed

variable {s : Store} (typed : s.Typed)
include typed

theorem update {id : NodeId} {f : Node → Node} (body : (f (s.node id)).body.Typed) : (s.update id f).Typed where
  bodies other := by
    rw [Store.node_update]
    split
    · next same => rw [same.1]; exact body
    · exact typed.bodies other
  overrides := typed.overrides

theorem inSession {f : Session → Session}
    (overrides : ∀ o ∈ (f s.session).overrides, ∃ o' ∈ s.session.overrides, o.target = o'.target ∧ o.value = o'.value) :
    (s.inSession f).Typed where
  bodies := typed.bodies
  overrides o listed := by
    obtain ⟨o',listed,target,value⟩ := overrides o listed
    rw [target,value]
    exact typed.overrides o' listed

theorem entered (id : NodeId) : (s.entered id).Typed := typed.inSession fun o listed => ⟨o,listed,rfl,rfl⟩

theorem left (id : NodeId) : (s.left id).Typed := typed.inSession fun o listed => ⟨o,listed,rfl,rfl⟩

theorem changed {id : NodeId} {t : Store} (changed : Store.Changed (fun n n' => n.body.Typed → n'.body.Typed) id s t) : t.Typed where
  bodies other := by
    by_cases same : other = id
    · exact same ▸ changed.here (typed.bodies id)
    · rw [changed.others other same]
      exact typed.bodies other
  overrides := by rw [changed.session]; exact typed.overrides

theorem push {n : Node} (body : n.body.Typed) : (s.push n).Typed where
  bodies id := by
    rw [Store.node_push]
    split
    · exact body
    · exact typed.bodies id
  overrides := typed.overrides

end Store.Typed

namespace Typed

open Discipline

variable {s t : Store}

theorem of_outline {b b' : Body} (same : b'.outline = b.outline) (typed : b.Typed) : b'.Typed := by
  cases b <;> cases b' <;> cases same <;> exact typed

theorem modified {n : Node} (typed : n.body.Typed) (state : Progress Unit) : (Resolve.modified state n).body.Typed := by
  obtain ⟨body⟩ := n
  cases body <;> exact typed

theorem modifyNode {id : NodeId} {f : Node → Node} (bears : ∀ n : Node, n.body.Typed → (f n).body.Typed) :
    Discipline.typed.Keeps (StoreM.modifyNode id f) := by
  intro s r t typed run
  obtain ⟨_,rfl⟩ := Runs.unique modifyNode_run run
  exact ⟨typed.update (bears _ (typed.bodies id)),trivial⟩

/-- Typed content bears edits. -/
theorem edited : Discipline.typed.Edited EntryHead.Typed where
  marked id f body _ _ := modifyNode fun n typed => by rw [body]; exact typed
  swapped s id b same r t typed run := by
    obtain ⟨_,rfl⟩ := Runs.unique modifyNode_run run
    exact ⟨typed.update (of_outline same (typed.bodies id)),trivial⟩
  rooted root s r t typed run := by
    obtain ⟨_,rfl⟩ := Runs.unique modifySession_run run
    exact ⟨typed.inSession fun o listed => ⟨o,listed,rfl,rfl⟩,trivial⟩
  grown body kind s r t typed run := by
    obtain ⟨_,rfl⟩ := Runs.unique newNode_run run
    exact ⟨typed.push (by cases body <;> first | exact trivial | exact absurd rfl kind),trivial⟩
  entered head value typed_head s r t typed run := by
    obtain ⟨_,rfl⟩ := Runs.unique newNode_run run
    exact ⟨typed.push ⟨typed_head,fun _ evaluated => by cases evaluated⟩,trivial⟩

theorem applyOverride (id : NodeId) : Discipline.typed.Keeps (applyOverride id) := by
  refine (Quiet.current id).keeps.bind fun node => (Still.requireSession node).keeps.bind fun _ => (Quiet.nameOf node).keeps.bind fun name => ?_
  intro s r t typed run
  rcases Runs.bind_inv run with ⟨found,u,taken,rest⟩ | ⟨e,taken,rfl⟩
  · obtain ⟨used,rfl,uses,valued⟩ := takeOverride_inv taken
    have typed' := typed.inSession (f := fun session => { session with overrides := used }) uses
    cases found with
    | none =>
      obtain ⟨_,rfl⟩ := Runs.pure_iff.mp rest
      exact ⟨typed',trivial⟩
    | some v =>
      obtain ⟨o,listed,rfl,rfl⟩ := valued v rfl
      exact ⟨(edited.override node (typed.overrides o listed) _ r t typed' rest).1,trivial⟩
  · obtain ⟨used,rfl,uses,_⟩ := takeOverride_inv taken
    exact ⟨typed.inSession uses,trivial⟩

/-! ## Declarations -/

mutual

/-- The value of names and literals does not depend on how objects are called and indexed. -/
theorem eval_same (env env' : Env) (locals : env.locals = env'.locals) (context : env.context = env'.context) (frame : Frame) (e : Expr)
    (typed : e.isTyped = true) : Eval.eval env frame e = Eval.eval env' frame e := by
  cases e with
  | literal l => rfl
  | name name => rw [Eval.eval,Eval.eval,Eval.lookup,Eval.lookup,locals,context]
  | list items => rw [Eval.eval,Eval.eval,evalItems_same env env' locals context frame items typed]
  | _ => cases typed

theorem evalItems_same (env env' : Env) (locals : env.locals = env'.locals) (context : env.context = env'.context) (frame : Frame)
    (items : List Item) (typed : Item.areTyped items = true) : Eval.evalItems env frame items = Eval.evalItems env' frame items := by
  cases items with
  | nil => rfl
  | cons item rest =>
    cases item with
    | one e =>
      obtain ⟨here,there⟩ := Bool.and_eq_true_iff.mp typed
      rw [Eval.evalItems,Eval.evalItems,eval_same env env' locals context frame e here,evalItems_same env env' locals context frame rest there]
    | spread e => cases typed

end

section Same

variable {host : Host} {calls calls' : Calls}

theorem evaluateList_same {source : Text} (typed : source.isTyped = true) (locals : Pairs) :
    Expression.evaluateList host calls source locals = Expression.evaluateList host calls' source locals := by
  unfold Expression.evaluateList
  congr
  funext session
  refine check_bind_congr fun es read => ?_
  obtain ⟨_,_,parsed⟩ := ok_of_bind read
  rw [Text.isTyped] at typed
  cases outcome : Grammar.parseList source with
  | error position => rw [outcome] at parsed; cases parsed
  | ok es' =>
    rw [outcome] at parsed typed
    obtain rfl := Except.ok.inj parsed
    have each (e : Expr) (member : e ∈ es') : Eval.eval (Expression.env host calls session.context locals) [] e =
        Eval.eval (Expression.env host calls' session.context locals) [] e :=
      eval_same (Expression.env host calls session.context locals) (Expression.env host calls' session.context locals) rfl rfl [] e
        (List.all_eq_true.mp typed e member)
    rw [mapM_same es' each]

/-- The declaration of a typed key does not depend on other work on the tree. -/
theorem source_same {source : DeclarationSource} (modifiers : source.modifiers = none)
    (types : ∀ part, source.types = some part → part.isTyped = true) (locals : Pairs) :
    Expression.declaration host calls source locals = Expression.declaration host calls' source locals := by
  unfold Expression.declaration
  rw [modifiers]
  cases listed : source.types with
  | none => simp only [Option.mapM_none]
  | some part =>
    have same : Expression.types host calls part locals = Expression.types host calls' part locals := by
      rw [Expression.types,Expression.types,Expression.declared,Expression.declared,evaluateList_same (types part listed)]
    simp only [Option.mapM_some,same]

/-- The declaration of an entry of a typed store does not depend on other work on the tree. -/
theorem declaration_same (typed : s.Typed) (id : NodeId) : Resolve.declaration host calls id s = Resolve.declaration host calls' id s := by
  have here := typed.bodies id
  rw [Resolve.declaration,Resolve.declaration,Runs.bind_apply,Runs.bind_apply]
  simp only [show getNode id s = some (.ok (s.node id),s) from rfl]
  cases body : (s.node id).body with
  | entry head slot declared renamed modification evaluated =>
    rw [body] at here
    cases evaluated with
    | some d => rfl
    | none =>
      dsimp only
      rw [here.1.inherited]
      have same (locals : Pairs) : Expression.declaration host calls head.key.source locals =
          Expression.declaration host calls' head.key.source locals := source_same here.1.modifiers here.1.types locals
      simp only [same]
  | _ => rfl

/-- The declaration of an entry of a typed store has no modifiers. -/
theorem declaration_bare (typed : s.Typed) {id : NodeId} {d : Declaration} (run : Runs (Resolve.declaration host calls id) s (.ok d) t) :
    d.modifiers = [] := by
  have here := typed.bodies id
  have rest := (Runs.bind_iff getNode_run).mp run
  cases body : (s.node id).body with
  | entry head slot declared renamed modification evaluated =>
    rw [body] at here rest
    cases evaluated with
    | some d' =>
      obtain ⟨same,rfl⟩ := Runs.pure_iff.mp rest
      exact Except.ok.inj same ▸ here.2 d' rfl
    | none =>
      dsimp only at rest
      rw [here.1.inherited] at rest
      obtain ⟨_,_,_,rest⟩ := Runs.bind_ok rest
      obtain ⟨_,_,_,rest⟩ := Runs.bind_ok rest
      obtain ⟨locals,_,_,rest⟩ := Runs.bind_ok rest
      obtain ⟨own,u,evaluated,rest⟩ := Runs.bind_ok rest
      have last := (Runs.bind_iff modifyNode_run).mp ((Runs.bind_iff (Runs.ok own u)).mp rest)
      rw [Except.ok.inj (Runs.pure_iff.mp last).1]
      exact Spending.declaration_unmodified here.1.modifiers evaluated
  | _ =>
    rw [body] at rest
    rw [Except.ok.inj (Runs.pure_iff.mp rest).1]

end Same

/-- Evaluating the declaration of an entry leaves all content typed. -/
theorem declaration_keeps (host : Host) (id : NodeId) : Discipline.typed.Keeps (Resolve.declaration host .exhausted id) := by
  intro s r t typed run
  have here := typed.bodies id
  refine KeepsAt.after getNode_run ?_ r t typed run
  cases body : (s.node id).body with
  | entry head slot declared renamed modification evaluated =>
    rw [body] at here
    cases evaluated with
    | some d => exact Keeps.pure d s
    | none =>
      dsimp only
      rw [here.1.inherited]
      have sound := (Sound.exhausted : Discipline.typed.Sound .exhausted).judged
      refine ((Still.requireSession id).keeps s).bind fun _ => Quiet.get.keeps.bind fun s' =>
        (Judgement.locals_holds sound _ : Discipline.typed.Keeps _).bind fun locals u => ?_
      refine ((Judgement.declarationOf_holds sound host _ locals : Discipline.typed.Keeps _) u).followed fun own v evaluated _ => ?_
      have bare := Spending.declaration_unmodified here.1.modifiers evaluated
      refine KeepsAt.after (Runs.ok own v) fun r w typed run => ?_
      have last := (Runs.bind_iff modifyNode_run).mp run
      obtain ⟨_,rfl⟩ := Runs.pure_iff.mp last
      refine ⟨typed.update ?_,trivial⟩
      have there := typed.bodies id
      cases body : (v.node id).body with
      | entry => rw [body] at there; exact ⟨there.1,fun d same => Option.some.inj same ▸ bare⟩
      | _ => trivial
  | _ => exact Keeps.pure _ s

end Typed

/-! ## Settling -/

/-- Work on a tree that only knows how to evaluate declarations, to a depth of references. -/
def Calls.alone (host : Host) : Nat → Calls
  | 0 => exhausted
  | _ + 1 => { exhausted with declaration := fun id => Resolve.declaration host exhausted id }

/-- Evaluating declarations keeps what bears the work on a tree. -/
theorem Calls.alone_sound {D : Discipline} {Known : Store → NodeId → Prop} (regular : D.Regular Known) (host : Host) (depth : Nat) :
    D.Sound (alone host depth) := by
  have sound : D.Sound .exhausted := .exhausted
  cases depth with
  | zero => exact sound
  | succ depth =>
    exact ⟨sound.resolve,sound.settle,sound.settled,sound.child,regular.declaration_step host sound,sound.apply,sound.invoke,
      sound.operate⟩

namespace Typed

open Discipline

variable {host : Host} {calls : Calls} {s t : Store} {depth : Nat} {id : NodeId}

theorem alone_bare (typed : s.Typed) {d : Declaration} (run : Runs ((Calls.alone host depth).declaration id) s (.ok d) t) :
    d.modifiers = [] := by
  cases depth with
  | zero => exact absurd run Runs.unending_iff
  | succ depth => exact declaration_bare typed run

theorem alone_keeps : Discipline.typed.Keeps ((Calls.alone host depth).declaration id) := by
  cases depth with
  | zero => exact .unending
  | succ depth => exact declaration_keeps host id

/-- Work that evaluates declarations as it would alone applies them so. -/
theorem declare_alone (same : ∀ t, t.Typed → calls.declaration id t = (Calls.alone host depth).declaration id t) (slot : NodeId)
    (typed : s.Typed) : Resolve.declare calls id slot s = Resolve.declare (Calls.alone host depth) id slot s := by
  rw [Resolve.declare,Resolve.declare,Runs.bind_apply,Runs.bind_apply]
  rcases overridden : StoreM.applyOverride slot s with _ | ⟨_ | node,t⟩
  · rfl
  · rfl
  · have typed' := (applyOverride slot s _ t typed overridden).1
    dsimp only
    rw [Runs.bind_apply,Runs.bind_apply,same t typed']
    rcases evaluated : (Calls.alone host depth).declaration id t with _ | ⟨_ | d,u⟩
    · rfl
    · rfl
    · dsimp only
      rw [alone_bare typed' evaluated]
      rfl

/-- Settling a node of a typed store does what it would do alone, a mapping apart. -/
theorem settle_alone (same : ∀ t, t.Typed → calls.declaration id t = (Calls.alone host depth).declaration id t)
    (apart : s.kind id ≠ .mapping) (typed : s.Typed) : Resolve.settle calls id s = Resolve.settle (Calls.alone host depth) id s := by
  rw [Resolve.settle,Resolve.settle,Runs.bind_apply,Runs.bind_apply]
  simp only [show getNode id s = some (.ok (s.node id),s) from rfl]
  cases body : (s.node id).body with
  | mapping => exact absurd (by rw [Store.kind,Node.kind,body]; rfl) apart
  | entry head slot declared renamed modification evaluated =>
    cases modification with
    | pending =>
      dsimp only
      rw [Resolve.modifyEntry_pending,Resolve.modifyEntry_pending]
      exact Resolve.modifying_congr (declare_alone same slot ((typed.update (modified (typed.bodies id) .active)).entered id))
    | _ => rfl
  | _ => rfl

theorem declare_keeps (host : Host) (depth : Nat) (id slot : NodeId) :
    Discipline.typed.Keeps (Resolve.declare (Calls.alone host depth) id slot) := by
  refine (applyOverride slot).bind fun node s r t typed run => ?_
  rcases Runs.bind_inv run with ⟨d,u,evaluated,rest⟩ | ⟨e,evaluated,_⟩
  · have typed' := (alone_keeps s _ u typed evaluated).1
    rw [alone_bare typed evaluated] at rest
    have rest := (Runs.bind_iff (Runs.ok node u)).mp rest
    refine ⟨(?_ : Discipline.typed.KeepsAt u _) _ t typed' rest |>.1,trivial⟩
    dsimp only
    split
    · refine Keeps.bind (modifyNode fun _ typed => ?_) (fun _ => .pure _) u
      exact typed
    · exact Keeps.pure _ u
  · exact alone_keeps s _ t typed evaluated

theorem modifying_keeps {declare : StoreM Bool} (keeps : Discipline.typed.Keeps declare) :
    Discipline.typed.Keeps (Resolve.modifying id declare) := by
  intro s r t typed run
  rcases Resolve.modifying_inv run with ⟨_,refused⟩ | ⟨s',u,same,_,ran,outcome⟩
  · exact Discipline.typed.alike s t refused typed
  have began := (Discipline.typed.alike s s' same typed).1
  have inner := (keeps _ _ u ((began.update (modified (began.bodies id) .active)).entered id) ran).1
  have ended : Store.Changed (fun n n' : Node => n.body.Typed → n'.body.Typed) id u (u.update id (Resolve.modified (.done ()))) :=
    .update (fun _ typed => typed) fun n typed => modified typed _
  refine ⟨?_,trivial⟩
  rcases outcome with rfl | ⟨e,v,w,_,failing,fails,rfl⟩
  · exact (inner.changed ended).left id
  · have typed' : v.Typed := by
      rcases failing with rfl | ⟨alike,_⟩
      · exact inner
      · exact (Discipline.typed.alike _ v alike (inner.changed ended)).1
    exact (typed'.changed (fails.changed (fun _ typed => typed) (fun _ _ _ first second typed => second (first typed))
      fun _ n typed => modified typed _)).left id

/-- Settling a node alone leaves all content typed. -/
theorem settle_keeps (host : Host) (depth : Nat) (apart : s.kind id ≠ .mapping) :
    Discipline.typed.KeepsAt s (Resolve.settle (Calls.alone host depth) id) := by
  refine KeepsAt.after getNode_run ?_
  cases body : (s.node id).body with
  | scalar => exact Keeps.pure _ s
  | mapping => exact absurd (by rw [Store.kind,Node.kind,body]; rfl) apart
  | sequence items declared isSettled =>
    cases isSettled with
    | true => exact Keeps.pure _ s
    | false => exact Keeps.bind (modifyNode fun _ _ => (by exact trivial)) (fun _ => Keeps.forM items fun item _ => (applyOverride item).map) s
  | entry head slot declared renamed modification evaluated =>
    cases modification with
    | done => exact Keeps.pure _ s
    | failed fault => exact Keeps.throw _ s
    | active => exact (Judgement.reportCycle_holds (fun id => (Still.requireSession id).keeps) id : Discipline.typed.keeping.Holds _) s
    | pending =>
      dsimp only
      rw [Resolve.modifyEntry_pending]
      exact modifying_keeps (declare_keeps host depth id slot) s

end Typed
end ConfTree
