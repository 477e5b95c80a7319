import ConfTree.Proofs.Overrides.Apply
import ConfTree.Tree.Resolve

/-!
Settling containers of plain content. Each place of a container is gone through once, the override of its
path is applied there, and the trees that wait in the places afterwards lie apart from each other
(`settleItems_run`, `settleEntries_run`).
-/
namespace ConfTree

open StoreM

variable {settings : Settings} {s t u : Store}

/-! ## Bookkeeping of work -/

/-- Work that ends well leaves its result, the node no longer noted as busy. -/
theorem guarded_run {α : Type} {id : NodeId} {wrap : Text → Cause} {remember : FaultId → StoreM Unit} {work : StoreM α} {v : α}
    (run : Runs work (s.inSession fun session => { session with busy := session.busy ++ [id] }) (.ok v) t) :
    Runs (Resolve.guarded id wrap remember work) s (.ok v)
      (t.inSession fun session => { session with busy := Resolve.eraseLast session.busy id }) :=
  modifySession_run.bind ((Runs.tryCatch_ok ((Runs.tryCatch_ok run).map_ok)).bind (modifySession_run.bind (Runs.ok _ _)))

theorem Advance.of_same {inside : NodeId → Prop} (nodes : t.nodes = s.nodes) (session : t.session = s.session) :
    Advance inside (fun _ => False) s t where
  grows := by rw [nodes]
  same id _ _ := Store.node_eq_of_nodes nodes id
  lasting := by rw [session]
  counted := by rw [session]; exact .refl _

theorem Advance.busy {inside : NodeId → Prop} (f : List NodeId → List NodeId) :
    Advance inside (fun _ => False) s (s.inSession fun session => { session with busy := f session.busy }) :=
  ⟨.inSession,rfl,.refl _⟩

/-- The names that expressions of a node know can always be made. -/
theorem locals_run {x level : Nat} {path : List Text} (located : s.Located x path level) (room : level ≤ s.nodes.size) :
    ∃ names, Runs (Expression.locals x) s (.ok names) (s.issued 2) ∧ Pairs.keys names = (["root","self","unit","ref","node"] : List Text) := by
  have value_run (id : NodeId) : Runs (nodeValue id) s (.ok (.object (.node id (s.kind id)))) s :=
    kindOf_run.bind (Runs.ok _ _)
  have bound := (located.requireSession_run room)
  exact ⟨_,bound.bind (get_run.bind ((value_run _).bind ((value_run _).bind ((value_run _).bind
    (compute_fresh_run.bind (compute_fresh_run.bind (Runs.ok _ _))))))),rfl⟩

theorem modifyBody_run {id : Nat} (old : id < s.nodes.size) (f : Body → Body) :
    ∃ t, Runs (modifyBody id f) s (.ok ()) t ∧ t.nodes.size = s.nodes.size ∧ Advance (fun other => other = id) (fun _ => False) s t ∧
      t.node id = { s.node id with body := f (s.node id).body } :=
  ⟨_,modifyNode_run,Store.size_update,.update rfl,Store.node_update_self old⟩

theorem old_of_entry {entry slot declared : Nat} {head : EntryHead} {renamed : Option Text} {modification : Progress Unit}
    {evaluated : Option Declaration} (body : (s.node entry).body = .entry head slot declared renamed modification evaluated) :
    entry < s.nodes.size := by
  by_contra outside
  rw [Store.node_of_size_le (by omega)] at body
  cases body

theorem old_of_mappingBody {x : Nat} {entries : List Nat} {isSettled : Bool} (body : (s.node x).body = .mapping entries isSettled) :
    x < s.nodes.size := by
  by_contra outside
  rw [Store.node_of_size_le (by omega)] at body
  cases body

/-- Noting how far the modification of an entry came changes nothing else. -/
theorem setModification_run {entry slot declared : Nat} {head : EntryHead} {renamed : Option Text} {modification : Progress Unit}
    {evaluated : Option Declaration} (body : (s.node entry).body = .entry head slot declared renamed modification evaluated)
    (state : Progress Unit) :
    ∃ t, Runs (Resolve.setModification entry state) s (.ok ()) t ∧ t.nodes.size = s.nodes.size ∧
      Advance (fun id => id = entry) (fun _ => False) s t ∧
      t.node entry = { s.node entry with body := .entry head slot declared renamed state evaluated } :=
  ⟨_,modifyNode_run,Store.size_update,.update rfl,by rw [Store.node_update_self (old_of_entry body),body]⟩

/-! ## Entries that declare nothing -/

/-- The content of an entry whose declaration came to a result. -/
def Body.declaring (result : Declaration) : Body → Body
  | .entry head slot declared renamed modification _ => .entry head slot declared renamed modification (some result)
  | body => body

/-- An entry that was modified and that declares nothing, nor inherits anything. -/
def Store.Undeclared (s : Store) (entry : Nat) : Prop :=
  ∃ head slot declared renamed, (s.node entry).body = .entry head slot declared renamed (.done ()) (some ⟨none,[]⟩)

theorem Store.Undeclared.over {entry : Nat} (undeclared : s.Undeclared entry) : (s.node entry).Over := by
  obtain ⟨head,slot,declared,renamed,body⟩ := undeclared
  rw [Node.Over,body]

theorem Store.Undeclared.same {entry : Nat} (undeclared : s.Undeclared entry) (same : t.node entry = s.node entry) :
    t.Undeclared entry := by
  rw [Store.Undeclared,same]
  exact undeclared

theorem old_of_over {id : Nat} (ended : (s.node id).Over) : id < s.nodes.size := by
  by_contra outside
  rw [Store.node_of_size_le (by omega)] at ended
  exact default_idle ended

/-- Such an entry stays what it is while nodes are changed that are still to be worked on. -/
theorem Store.Undeclared.frame {entry : Nat} {inside : NodeId → Prop} (undeclared : s.Undeclared entry) (frame : s.Frame inside t)
    (idle : ∀ id : Nat, inside id → ¬ (s.node id).Over) : t.Undeclared entry :=
  undeclared.same (frame.same entry (old_of_over undeclared.over) fun within => idle entry within undeclared.over)

/-- An entry that is to inherit from another one inherits nothing. -/
def Store.NothingInherited (s : Store) (inherited : Option NodeId) : Prop := ∀ base, inherited = some base → s.Undeclared base

/-- The declaration of an entry is empty when its key declares nothing and it inherits nothing. -/
theorem declaration_run (host : Host) (depth : Nat) {entry level : Nat} {path : List Text} {key : Text} {slot declared : Nat}
    {modification : Progress Unit} {inherited : Option NodeId}
    (body : (s.node entry).body = .entry ⟨⟨key,.none⟩,inherited⟩ slot declared none modification none) (plain : s.NothingInherited inherited)
    (bound : Runs (requireSession entry) s (.ok ()) s) (located : s.Located slot path level) (room : level ≤ s.nodes.size) :
    ∃ t, Runs ((Calls.ofDepth host (depth + 2)).declaration entry) s (.ok ⟨none,[]⟩) t ∧ t.nodes.size = s.nodes.size ∧
      Advance (fun id => id = entry) (fun _ => False) s t ∧
      t.node entry = { s.node entry with body := .entry ⟨⟨key,.none⟩,inherited⟩ slot declared none modification (some ⟨none,[]⟩) } := by
  obtain ⟨names,locals,_⟩ := locals_run located room
  have value : s.entryValue entry = slot := by
    rw [Store.entryValue,Store.slot,body]
    exact Store.current_of_live located.live
  obtain ⟨t,merge,size,advance,after⟩ := modifyBody_run (s := s.issued 2) (old_of_entry body) (.declaring ⟨none,[]⟩)
  refine ⟨t,?_,size,?_,?_⟩
  · have own : Runs (Expression.declaration host (Calls.ofDepth host (depth + 1)) ⟨none,none⟩ names) (s.issued 2)
        (.ok ⟨none,[]⟩) (s.issued 2) := rfl
    refine getNode_run.bind ?_
    rw [body]
    refine bound.bind (get_run.bind ?_)
    rw [value]
    refine locals.bind (own.bind ?_)
    cases inherited with
    | none => exact (Runs.ok _ _).bind (merge.bind (Runs.ok _ _))
    | some base =>
      obtain ⟨head,_,_,_,evaluated⟩ := plain base rfl
      have known : Runs ((Calls.ofDepth host (depth + 1)).declaration base) (s.issued 2) (.ok ⟨none,[]⟩) (s.issued 2) := by
        refine getNode_run.bind ?_
        rw [Store.node_issued,evaluated]
        exact Runs.ok _ _
      have merged : Runs (compute fun next => .ok (Declaration.merge next ⟨none,[]⟩ ⟨none,[]⟩,next + 0)) (s.issued 2)
          (.ok (⟨none,[]⟩ : Declaration)) (s.issued 2) := rfl
      exact known.bind (merged.bind (merge.bind (Runs.ok _ _)))
  · exact ((Advance.of_same Store.nodes_issued Store.session_issued).trans advance fun _ _ within => within).mono
      (fun _ _ within => within) (by simp)
  · rw [after,Store.node_issued,body]
    rfl

/-- An entry of a mapping, before it was modified. -/
structure Waiting (s : Store) (mapping : Nat) (b : Branch) : Prop where
  blank : (s.node b.entry).Blank
  parent : (s.node b.entry).parent = some mapping
  body : ∃ inherited, s.NothingInherited inherited ∧
    (s.node b.entry).body = .entry ⟨⟨b.key,.none⟩,inherited⟩ b.plot.root b.plot.root none .pending none

/-- An entry of a mapping, after it was modified. -/
structure Modified (s : Store) (mapping : Nat) (b : Branch) : Prop where
  live : (s.node b.entry).replacedBy = none
  parent : (s.node b.entry).parent = some mapping
  body : ∃ head declared evaluated, head.key.name = b.key ∧
    (s.node b.entry).body = .entry head b.plot.root declared none (.done ()) evaluated

namespace Waiting

variable {mapping : Nat} {b : Branch}

theorem idle (waiting : Waiting s mapping b) : ¬ (s.node b.entry).Over := by
  obtain ⟨inherited,_,body⟩ := waiting.body
  rw [Node.Over,body]
  rintro ⟨⟩

theorem frame {inside : NodeId → Prop} (waiting : Waiting s mapping b) (frame : s.Frame inside t)
    (idle : ∀ id : Nat, inside id → ¬ (s.node id).Over) (same : t.node b.entry = s.node b.entry) : Waiting t mapping b where
  blank := same ▸ waiting.blank
  parent := same ▸ waiting.parent
  body := by
    obtain ⟨inherited,plain,body⟩ := waiting.body
    exact ⟨inherited,fun base from_base => (plain base from_base).frame frame idle,same ▸ body⟩

end Waiting

theorem modifyEntry_run (host : Host) (depth : Nat) {x level : Nat} {path : List Text} {entries : List Nat} {isSettled : Bool} {b : Branch}
    {inside : NodeId → Prop} (anchored : s.Anchored inside x path level) (covers : ∀ id, id = b.plot.root ∨ id = b.entry → inside id)
    (body : (s.node x).body = .mapping entries isSettled) (member : b.entry ∈ entries) (x_live : (s.node x).replacedBy = none)
    (x_old : x < s.nodes.size) (x_apart : x ≠ b.plot.root ∧ x ≠ b.entry) (outside : ¬ b.plot.Holds b.entry)
    (waiting : Waiting s x b) (ready : Ready s b.entry b.plot) (room : level + 2 ≤ s.nodes.size)
    (dotless : Dotless (path ++ [b.key])) (plain : ∀ o ∈ s.session.overrides, o.value.isPlain settings = true) :
    ∃ (t : Store) (q : Plot), Runs ((Calls.ofDepth host (depth + 3)).settle b.entry) s (.ok ()) t ∧
      Modified t x ⟨b.key,b.entry,q⟩ ∧ t.Undeclared b.entry ∧ Ready t b.entry q ∧
      q.value = (Overrides.replacement s.session.overrides (path ++ [b.key])).getD b.plot.value ∧
      ((q.first = b.plot.first ∧ q.root = b.plot.root) ∨ s.nodes.size ≤ q.first) ∧
      Advance (fun id => id = b.plot.root ∨ id = b.entry) (· = path ++ [b.key]) s t := by
  obtain ⟨key,entry,p⟩ := b
  obtain ⟨inherited,inherits,entry_body⟩ := waiting.body
  have entry_old : entry < s.nodes.size := old_of_entry entry_body
  have root_apart : entry ≠ p.root := fun same => outside ⟨same ▸ ready.planted.least,Nat.le_of_eq same⟩
  -- The mapping above keeps its place, so the entry and its value are located by their own links.
  have above (u : Store) (frame : s.Frame (fun id => id = p.root ∨ id = entry) u) : u.Located x path level ∧
      u.node x = s.node x := by
    have same : u.node x = s.node x := frame.same x x_old (by simpa using x_apart)
    exact ⟨anchored u (frame.mono fun id _ => covers id) (by rw [same]) (by rw [same]) (by rw [same,x_live]),same⟩
  have locate (u : Store) (y slot : Nat) (modification : Progress Unit) (evaluated : Option Declaration)
      (frame : s.Frame (fun id => id = p.root ∨ id = entry) u)
      (here : u.node entry = { s.node entry with body := .entry ⟨⟨key,.none⟩,inherited⟩ y slot none modification evaluated })
      (live : (u.node y).replacedBy = none) (parent : (u.node y).parent = some entry) :
      u.Located y (path ++ [key]) (level + 2) := by
    obtain ⟨located,same⟩ := above u frame
    exact located.value (same ▸ body) member (by rw [here]) (by rw [here]; exact waiting.blank.live)
      (by rw [here]; exact waiting.parent) live parent
  have bound (u : Store) (y slot : Nat) (modification : Progress Unit) (evaluated : Option Declaration)
      (frame : s.Frame (fun id => id = p.root ∨ id = entry) u)
      (here : u.node entry = { s.node entry with body := .entry ⟨⟨key,.none⟩,inherited⟩ y slot none modification evaluated }) :
      Runs (requireSession entry) u (.ok ()) u := by
    obtain ⟨located,same⟩ := above u frame
    have grows := frame.grows
    exact (located.entry (same ▸ body) member (by rw [here]; exact waiting.blank.live)
      (by rw [here]; exact waiting.parent)).requireSession_run (by omega)
  have only_entry (id : NodeId) (here : id = entry) : id = p.root ∨ id = entry := .inr here
  obtain ⟨s₁,activate,size₁,active,after₁⟩ := setModification_run entry_body .active
  obtain ⟨s₂,entered⟩ : ∃ u, u = s₁.inSession fun session => { session with busy := session.busy ++ [entry] } := ⟨_,rfl⟩
  have busied : Advance (fun id => id = entry) (fun _ => False) s s₂ := by
    rw [entered]
    exact (active.trans (.busy fun busy => busy ++ [entry]) fun _ _ within => within).mono (fun _ _ within => within) (by simp)
  have advance₂ := busied.mono (fun id _ => only_entry id) fun _ => Iff.rfl
  have after₂ : s₂.node entry = { s.node entry with body := .entry ⟨⟨key,.none⟩,inherited⟩ p.root p.root none .active none } := by
    rw [entered,Store.node_inSession,after₁]
  have ready₂ : Ready s₂ entry p := ready.frame busied.toFrame fun id holds same => outside (same ▸ holds)
  have located₂ := locate s₂ p.root p.root .active none advance₂.toFrame after₂ ready₂.planted.blank.live ready₂.parent
  have grows₂ := advance₂.grows
  have place : Place s₂ entry p.root fun y => .entry ⟨⟨key,.none⟩,inherited⟩ y p.root none .active none :=
    place_value root_apart (by omega) (by rw [after₂]; exact waiting.blank.live) (by rw [after₂])
  obtain ⟨s₃,q,apply,done⟩ := applyOverride_run place ready₂ located₂ (by omega) dotless (by simp)
    (advance₂.counted.values (p := fun v => v.isPlain settings = true) plain) fun u y frame _ around live parent => by
      rw [after₂] at around
      exact locate u y p.root .active none (advance₂.toFrame.trans frame) around live parent
  have advance₃ := advance₂.trans done.advance fun _ _ within => within
  have after₃ := done.around
  rw [after₂] at after₃
  have located₃ := locate s₃ q.root p.root .active none advance₃.toFrame after₃ done.ready.planted.blank.live done.ready.parent
  have grows₃ := advance₃.grows
  have inherits₃ : s₃.NothingInherited inherited := fun base from_base => (inherits base from_base).frame advance₃.toFrame fun id here => by
    rcases here with rfl | rfl
    · exact ready.idle _ ⟨ready.planted.least,Nat.le_refl _⟩
    · exact waiting.idle
  obtain ⟨s₄,declare,size₄,declared,after₄⟩ := declaration_run host depth (by rw [after₃]) inherits₃
    (bound s₃ q.root p.root .active none advance₃.toFrame after₃) located₃ (by omega)
  rw [after₃] at after₄
  obtain ⟨s₅,finish,size₅,finished,after₅⟩ := setModification_run (by rw [after₄]) (.done ())
  rw [after₄] at after₅
  have tail : Advance (fun id => id = entry) (fun _ => False) s₃
      (s₅.inSession fun session => { session with busy := Resolve.eraseLast session.busy entry }) :=
    ((declared.trans finished fun _ _ within => within).trans (.busy fun busy => Resolve.eraseLast busy entry)
      fun _ _ within => within).mono (fun _ _ within => within) (by simp)
  refine ⟨_,q,?run,⟨?live,?parent,?body⟩,?undeclared,?ready,?value,?place,
    (advance₃.trans tail fun id _ => only_entry id).mono (fun _ _ within => within) (by simp)⟩
  case run =>
    refine getNode_run.bind ?_
    rw [entry_body]
    refine (bound s p.root p.root .pending none (.refl _ _) (by rw [← entry_body])).bind (activate.bind ?_)
    refine guarded_run (entered ▸ apply.bind (declare.bind ?_))
    have unmodified : Runs (Modify.applyAll (Calls.ofDepth host (depth + 2)) q.root []) s₄ (.ok q.root) s₄ := Runs.ok _ _
    exact unmodified.bind (finish.bind (Runs.ok _ _))
  case live =>
    rw [Store.node_inSession,after₅]
    exact waiting.blank.live
  case parent =>
    rw [Store.node_inSession,after₅]
    exact waiting.parent
  case body => exact ⟨_,p.root,some ⟨none,[]⟩,rfl,by rw [Store.node_inSession,after₅]⟩
  case undeclared => exact ⟨_,_,_,_,by rw [Store.node_inSession,after₅]⟩
  case value => rw [done.value,advance₂.counted.replacement]
  case place => exact done.place.imp_right fun new => Nat.le_trans grows₂ new
  case ready =>
    refine done.ready.frame tail.toFrame fun id holds same => ?_
    obtain ⟨lower,upper⟩ : q.first ≤ entry ∧ entry ≤ q.root := same ▸ holds
    rcases done.place with ⟨first,root⟩ | new
    · exact outside ⟨by show p.first ≤ entry; omega,by show entry ≤ p.root; omega⟩
    · omega

/-! ## Places one after another -/

theorem pairwise_replace {α : Type} {R : α → α → Prop} {before after : List α} {a b : α} (all : (before ++ a :: after).Pairwise R)
    (left : ∀ c ∈ before, R c a → R c b) (right : ∀ c ∈ after, R a c → R b c) : (before ++ b :: after).Pairwise R := by
  simp only [List.pairwise_append,List.pairwise_cons,List.mem_cons] at all ⊢
  obtain ⟨first,⟨next,last⟩,across⟩ := all
  refine ⟨first,⟨fun c member => right c member (next c member),last⟩,fun c member d place => ?_⟩
  rcases place with rfl | later
  · exact left c member (across c member a (.inl rfl))
  · exact across c member d (.inr later)

namespace Plot

/-- Two stretches without a common node. -/
def Apart (p q : Plot) : Prop := p.root < q.first ∨ q.root < p.first

/-- A stretch among the children of a tree, or new since the store `s`. -/
def Below (s : Store) (first x : Nat) (p : Plot) : Prop := (first ≤ p.first ∧ p.root < x) ∨ s.nodes.size ≤ p.first

end Plot

theorem ofNat_dotless (n : Nat) : ('.' : CodeUnit) ∉ (Text.ofNat n).units := by
  intro member
  obtain ⟨c,digit,same⟩ := List.mem_map.mp member
  have is_digit := Nat.isDigit_of_mem_toDigits (by decide) (by decide) digit
  have dot : c = '.' := by
    rw [← ofChar_digit c is_digit,same]
    decide
  rw [dot] at is_digit
  exact absurd is_digit (by decide)

theorem Key.bare_dotless {key : Text} (bare : Key.isBare key = true) : ('.' : CodeUnit) ∉ key.units := by
  intro member
  obtain ⟨named,_⟩ := Bool.and_eq_true_iff.mp bare
  obtain ⟨units⟩ := key
  cases units with
  | nil => cases member
  | cons u rest =>
    obtain ⟨starts,further⟩ : u.startsName = true ∧ rest.all CodeUnit.inName = true := by simpa [Address.isName] using named
    have no_start : CodeUnit.startsName '.' = false := by decide
    have no_part : CodeUnit.inName '.' = false := by decide
    rcases List.mem_cons.mp member with rfl | later
    · rw [no_start] at starts
      cases starts
    · rw [List.all_eq_true.mp further _ later] at no_part
      cases no_part

theorem Dotless.append {path : List Text} {part : Text} (dotless : Dotless path) (last : ('.' : CodeUnit) ∉ part.units) :
    Dotless (path ++ [part]) := by
  intro other member
  rcases List.mem_append.mp member with before | here
  · exact dotless other before
  · exact (List.mem_singleton.mp here) ▸ last

/-- A sequence whose places hold trees that wait, since the store `s₀` in which its resolution began. -/
structure Items (s₀ : Store) (first x : Nat) (declared : List Nat) (parts : List Plot) (s : Store) : Prop where
  first_le : first ≤ x
  x_old : x < s₀.nodes.size
  frame : s₀.Frame (Stretch first x) s
  node : s.node x = { s₀.node x with body := .sequence (parts.map Plot.root) declared true, resolution := .active }
  ready : ∀ p ∈ parts, Ready s x p
  below : ∀ p ∈ parts, p.Below s₀ first x
  apart : parts.Pairwise Plot.Apart

namespace Items

variable {s₀ : Store} {first x level : Nat} {path : List Text} {declared : List Nat} {done rest : List Plot} {p : Plot}

theorem located (items : Items s₀ first x declared done s) (anchored : s₀.Anchored (Stretch first x) x path level)
    (blank : (s₀.node x).Blank) : s.Located x path level :=
  anchored s items.frame (by rw [items.node]) (by rw [items.node]) (by rw [items.node]; exact blank.live)

theorem not_above (items : Items s₀ first x declared done s) (member : p ∈ done) : ¬ p.Holds x := by
  have x_old := items.x_old
  have below := items.below p member
  rintro ⟨lower,upper⟩
  rcases below with ⟨_,inner⟩ | new
  · omega
  · omega

theorem fresh (items : Items s₀ first x declared (done ++ p :: rest) s) : p.root ∉ done.map Plot.root := by
  intro member
  obtain ⟨q,before,same⟩ := List.mem_map.mp member
  have apart := (List.pairwise_append.mp items.apart).2.2 q before p (by simp)
  have least := (items.ready p (by simp)).planted.least
  have least' := (items.ready q (by simp [before])).planted.least
  rcases apart with left | right
  · omega
  · omega

theorem item_located (items : Items s₀ first x declared (done ++ p :: rest) s)
    (anchored : s₀.Anchored (Stretch first x) x path level) (blank : (s₀.node x).Blank) :
    s.Located p.root (path ++ [.ofNat done.length]) (level + 1) := by
  have ready := items.ready p (by simp)
  refine (items.located anchored blank).item (by rw [items.node]) ?_ ready.planted.blank.live ready.parent
  simpa using idxOf?_append_cons (rest.map Plot.root) items.fresh

/-- What an override in a place changes lies in the stretch of the sequence or is new. -/
theorem covers (items : Items s₀ first x declared (done ++ p :: rest) s) (id : Nat) (here : id = p.root ∨ id = x) :
    Stretch first x id ∨ s₀.nodes.size ≤ id := by
  have least := (items.ready p (by simp)).planted.least
  rcases here with rfl | rfl
  · rcases items.below p (by simp) with ⟨lower,upper⟩ | new
    · exact .inl ⟨by omega,by omega⟩
    · exact .inr (by omega)
  · exact .inl ⟨items.first_le,Nat.le_refl _⟩

/-- The trees of the other places stay apart from the one that took a place over. -/
theorem replace (items : Items s₀ first x declared (done ++ p :: rest) s) {q : Plot}
    (overridden : Overridden s x (fun y => .sequence (done.map Plot.root ++ y :: rest.map Plot.root) declared true) path p q t) :
    Items s₀ first x declared (done ++ q :: rest) t where
  first_le := items.first_le
  x_old := items.x_old
  frame := items.frame.followed overridden.advance.toFrame fun id old here =>
    (items.covers id here).resolve_right (Nat.not_le.mpr old)
  node := by
    rw [overridden.around,items.node]
    simp
  ready r member := by
    have other (there : r ∈ done ++ p :: rest) (apart : p.Apart r) : Ready t x r := by
      have least := (items.ready r there).planted.least
      have least' := (items.ready p (by simp)).planted.least
      refine (items.ready r there).frame overridden.advance.toFrame fun id holds here => ?_
      rcases here with rfl | rfl
      · obtain ⟨lower,upper⟩ : r.first ≤ p.root ∧ p.root ≤ r.root := holds
        rcases apart with left | right
        · omega
        · omega
      · exact items.not_above there holds
    simp only [List.mem_append,List.mem_cons] at member
    have apart := items.apart
    simp only [List.pairwise_append,List.pairwise_cons,List.mem_cons] at apart
    rcases member with before | rfl | later
    · exact other (by simp [before]) (apart.2.2 r before p (.inl rfl)).symm
    · exact overridden.ready
    · exact other (by simp [later]) (apart.2.1.1 r later)
  below r member := by
    have grows := items.frame.grows
    simp only [List.mem_append,List.mem_cons] at member
    rcases member with before | rfl | later
    · exact items.below r (by simp [before])
    · rcases overridden.place with ⟨first_same,root_same⟩ | new
      · rw [Plot.Below,first_same,root_same]
        exact items.below p (by simp)
      · exact .inr (Nat.le_trans grows new)
    · exact items.below r (by simp [later])
  apart := by
    refine pairwise_replace items.apart (fun c before apart => ?_) fun c later apart => ?_
    all_goals rcases overridden.place with ⟨first_same,root_same⟩ | new
    · rwa [Plot.Apart,first_same,root_same]
    · have old := (items.ready c (by simp [before])).planted.old
      exact .inl (by omega)
    · rwa [Plot.Apart,first_same,root_same]
    · have old := (items.ready c (by simp [later])).planted.old
      exact .inr (by omega)

end Items

/-- Going through the places of a sequence applies the override of each one. -/
theorem settleItems_run {s₀ : Store} {first x level : Nat} {path : List Text} {declared : List Nat}
    (anchored : s₀.Anchored (Stretch first x) x path level) (blank : (s₀.node x).Blank) (room : level + 1 ≤ s₀.nodes.size)
    (dotless : Dotless path) (rest done : List Plot) (items : Items s₀ first x declared (done ++ rest) s)
    (plain : ∀ o ∈ s.session.overrides, o.value.isPlain settings = true) :
    ∃ (t : Store) (parts : List Plot),
      Runs ((rest.map Plot.root).forM fun item => discard (applyOverride item)) s (.ok ()) t ∧
      Items s₀ first x declared (done ++ parts) t ∧
      parts.map Plot.value = rest.mapIdx (fun i p =>
        (Overrides.replacement s.session.overrides (path ++ [.ofNat (done.length + i)])).getD p.value) ∧
      Advance (fun id : Nat => Stretch first x id ∨ s₀.nodes.size ≤ id)
        (fun used => ∃ i < rest.length, used = path ++ [.ofNat (done.length + i)]) s t := by
  induction rest generalizing done s with
  | nil => exact ⟨s,[],Runs.ok _ _,items,rfl,(Advance.refl _ s).mono (fun _ _ within => within) (by simp)⟩
  | cons p rest ih =>
    have grows := items.frame.grows
    have x_old := items.x_old
    have body : (s.node x).body = .sequence (done.map Plot.root ++ p.root :: rest.map Plot.root) declared true := by
      rw [items.node]
      simp
    have apart : x ≠ p.root := fun same =>
      items.not_above (by simp) ⟨same ▸ (items.ready p (by simp)).planted.least,Nat.le_of_eq same⟩
    have place := place_item apart (by omega) (by rw [items.node]; exact blank.live) items.fresh body
    obtain ⟨t,q,run,overridden⟩ := applyOverride_run place (items.ready p (by simp)) (items.item_located anchored blank)
      (by omega) (dotless.append (ofNat_dotless _)) (by simp) plain fun u y frame new around live parent => by
        rw [items.node] at around
        have above := anchored u (items.frame.followed frame fun id old here =>
          (items.covers id here).resolve_right (Nat.not_le.mpr old)) (by rw [around]) (by rw [around])
          (by rw [around]; exact blank.live)
        have fresh : y ∉ done.map Plot.root := by
          intro member
          obtain ⟨c,before,same⟩ := List.mem_map.mp member
          have old := (items.ready c (by simp [before])).planted.old
          omega
        have index := idxOf?_append_cons (rest.map Plot.root) fresh
        rw [List.length_map] at index
        exact above.item (by rw [around]) index live parent
    have replaced : Items s₀ first x declared ((done ++ [q]) ++ rest) t := by simpa using items.replace overridden
    obtain ⟨u,parts,runs,final,values,advance⟩ := ih (done ++ [q]) replaced
      (overridden.advance.counted.values (p := fun v => v.isPlain settings = true) plain)
    refine ⟨u,q :: parts,?_,by simpa using final,?_,?_⟩
    · rw [List.map_cons,Runs.forM_cons]
      exact (Runs.map_ok run).bind runs
    · rw [List.map_cons,values,List.mapIdx_cons,overridden.value,overridden.advance.counted.replacement,List.length_append]
      simp [Nat.add_assoc,Nat.add_comm 1]
    · have here := overridden.advance.mono (fun id _ => items.covers id) fun _ => Iff.rfl
      refine (here.trans advance fun _ _ within => within).mono (fun _ _ within => within) fun used => ?_
      rw [List.length_append,List.length_singleton,List.length_cons]
      constructor
      · rintro (rfl | ⟨i,bound,rfl⟩)
        · exact ⟨0,by omega,by simp⟩
        · exact ⟨i + 1,by omega,by rw [Nat.add_assoc,Nat.add_comm 1]⟩
      · rintro ⟨_ | i,bound,rfl⟩
        · exact .inl (by simp)
        · exact .inr ⟨i,by omega,by rw [Nat.add_assoc,Nat.add_comm 1]⟩

/-! ## Entries one after another -/

/-- A mapping whose entries are modified up to some place and wait from there on, since the store `s₀` in
which it began to be settled. -/
structure Entries (s₀ : Store) (first x : Nat) (done rest : List Branch) (s : Store) : Prop where
  first_le : first ≤ x
  x_old : x < s₀.nodes.size
  frame : s₀.Frame (Stretch first x) s
  node : s.node x = { s₀.node x with body := .mapping ((done ++ rest).map Branch.entry) true }
  modified : ∀ b ∈ done, Modified s x b
  undeclared : ∀ b ∈ done, s.Undeclared b.entry
  waiting : ∀ b ∈ rest, Waiting s x b
  ready : ∀ b ∈ done ++ rest, Ready s b.entry b.plot
  inner : ∀ b ∈ done ++ rest, first ≤ b.entry ∧ b.entry < x
  below : ∀ b ∈ done ++ rest, b.plot.Below s₀ first x
  outside : ∀ b ∈ done ++ rest, ∀ c ∈ done ++ rest, ¬ b.plot.Holds c.entry
  apart : (done ++ rest).Pairwise fun b c => b.plot.Apart c.plot ∧ b.entry ≠ c.entry

namespace Entries

variable {s₀ : Store} {first x level : Nat} {path : List Text} {done rest : List Branch} {b : Branch}

theorem not_above (entries : Entries s₀ first x done rest s) (member : b ∈ done ++ rest) : ¬ b.plot.Holds x := by
  have x_old := entries.x_old
  rintro ⟨lower,upper⟩
  rcases entries.below b member with ⟨_,inner⟩ | new
  · omega
  · omega

theorem covers (entries : Entries s₀ first x done (b :: rest) s) (id : Nat) (here : id = b.plot.root ∨ id = b.entry) :
    Stretch first x id ∨ s₀.nodes.size ≤ id := by
  have least := (entries.ready b (by simp)).planted.least
  rcases here with rfl | rfl
  · rcases entries.below b (by simp) with ⟨lower,upper⟩ | new
    · exact .inl ⟨by omega,by omega⟩
    · exact .inr (by omega)
  · have inner := entries.inner b (by simp)
    exact .inl ⟨inner.1,Nat.le_of_lt inner.2⟩

/-- The entries and values beside an entry stay as they are while it is modified. -/
theorem advance (entries : Entries s₀ first x done (b :: rest) s) {q : Plot} (modified : Modified t x ⟨b.key,b.entry,q⟩)
    (undeclared : t.Undeclared b.entry) (ready : Ready t b.entry q) (place : (q.first = b.plot.first ∧ q.root = b.plot.root) ∨ s.nodes.size ≤ q.first)
    (frame : s.Frame (fun id => id = b.plot.root ∨ id = b.entry) t) :
    Entries s₀ first x (done ++ [⟨b.key,b.entry,q⟩]) rest t := by
  have grows := entries.frame.grows
  have x_old := entries.x_old
  have apart := entries.apart
  simp only [List.pairwise_append,List.pairwise_cons,List.mem_cons] at apart
  obtain ⟨among_done,⟨before_rest,among_rest⟩,across⟩ := apart
  -- Every other branch is apart from the one modified.
  have others (c : Branch) (member : c ∈ done ++ rest) : c ∈ done ++ b :: rest ∧ c.plot.Apart b.plot ∧ c.entry ≠ b.entry := by
    rcases List.mem_append.mp member with before | later
    · obtain ⟨disjoint,differ⟩ := across c before b (.inl rfl)
      exact ⟨by simp [before],disjoint,differ⟩
    · obtain ⟨disjoint,differ⟩ := before_rest c later
      exact ⟨by simp [later],disjoint.symm,Ne.symm differ⟩
  have kept (c : Branch) (member : c ∈ done ++ rest) : t.node c.entry = s.node c.entry ∧ Ready t c.entry c.plot := by
    obtain ⟨there,disjoint,differ⟩ := others c member
    have c_ready := entries.ready c there
    have least := c_ready.planted.least
    have least' := (entries.ready b (by simp)).planted.least
    have entry_old := entries.inner c there
    refine ⟨frame.same _ (by omega) fun here => ?_,c_ready.frame frame fun id holds here => ?_⟩
    · rcases here with same | same
      · exact entries.outside b (by simp) c there ⟨by rw [same]; exact least',Nat.le_of_eq same⟩
      · exact differ same
    · rcases here with rfl | rfl
      · obtain ⟨lower,upper⟩ : c.plot.first ≤ b.plot.root ∧ b.plot.root ≤ c.plot.root := holds
        rcases disjoint with left | right
        · omega
        · omega
      · exact entries.outside c there b (by simp) holds
  have split {c : Branch} (member : c ∈ (done ++ [⟨b.key,b.entry,q⟩]) ++ rest) :
      c ∈ done ++ rest ∨ c = ⟨b.key,b.entry,q⟩ := by
    simp only [List.mem_append,List.mem_singleton] at member ⊢
    rcases member with (before | here) | later
    · exact .inl (.inl before)
    · exact .inr here
    · exact .inl (.inr later)
  have q_outside (c : Branch) (there : c ∈ done ++ b :: rest) : ¬ q.Holds c.entry := by
    have inner := entries.inner c there
    rintro ⟨lower,upper⟩
    rcases place with ⟨first_same,root_same⟩ | new
    · exact entries.outside b (by simp) c there ⟨by omega,by omega⟩
    · omega
  refine ⟨entries.first_le,x_old,entries.frame.followed frame fun id old here =>
    (entries.covers id here).resolve_right (Nat.not_le.mpr old),?node,?modified,?undeclared,?waiting,?ready,?inner,?below,?outside,?apart⟩
  case node =>
    rw [frame.same x (by omega) fun here => ?_,entries.node]
    · simp
    · have inner := entries.inner b (by simp)
      rcases here with same | same
      · exact entries.not_above (by simp) ⟨by rw [same]; exact (entries.ready b (by simp)).planted.least,Nat.le_of_eq same⟩
      · exact absurd same (Nat.ne_of_gt inner.2)
  case modified =>
    intro c member
    rcases List.mem_append.mp member with before | here
    · obtain ⟨live,parent,body⟩ := entries.modified c before
      have same := (kept c (by simp [before])).1
      exact ⟨same ▸ live,same ▸ parent,same ▸ body⟩
    · exact (List.mem_singleton.mp here) ▸ modified
  case undeclared =>
    intro c member
    rcases List.mem_append.mp member with before | here
    · exact (entries.undeclared c before).same (kept c (by simp [before])).1
    · exact (List.mem_singleton.mp here) ▸ undeclared
  case waiting =>
    intro c member
    refine (entries.waiting c (by simp [member])).frame frame (fun id here => ?_) (kept c (by simp [member])).1
    have ready_b := entries.ready b (by simp)
    rcases here with rfl | rfl
    · exact ready_b.idle _ ⟨ready_b.planted.least,Nat.le_refl _⟩
    · exact (entries.waiting b (by simp)).idle
  case ready =>
    intro c member
    rcases split member with other | rfl
    · exact (kept c other).2
    · exact ready
  case inner =>
    intro c member
    rcases split member with other | rfl
    · exact entries.inner c (others c other).1
    · exact entries.inner b (by simp)
  case below =>
    intro c member
    rcases split member with other | rfl
    · exact entries.below c (others c other).1
    · rcases place with ⟨first_same,root_same⟩ | new
      · show q.Below s₀ first x
        rw [Plot.Below,first_same,root_same]
        exact entries.below b (by simp)
      · exact .inr (Nat.le_trans grows new)
  case outside =>
    intro c c_member d d_member
    have d_entry : ∃ d' ∈ done ++ b :: rest, d'.entry = d.entry := by
      rcases split d_member with other | rfl
      · exact ⟨d,(others d other).1,rfl⟩
      · exact ⟨b,by simp,rfl⟩
    obtain ⟨d',there,same⟩ := d_entry
    rw [← same]
    rcases split c_member with other | rfl
    · exact entries.outside c (others c other).1 d' there
    · exact q_outside d' there
  case apart =>
    rw [List.append_assoc,List.singleton_append]
    refine pairwise_replace entries.apart (fun c before pair => ⟨?_,pair.2⟩) fun c later pair => ⟨?_,pair.2⟩
    all_goals rcases place with ⟨first_same,root_same⟩ | new
    · show c.plot.Apart q
      rw [Plot.Apart,first_same,root_same]
      exact pair.1
    · have old := (entries.ready c (by simp [before])).planted.old
      exact .inl (Nat.lt_of_lt_of_le old new)
    · show q.Apart c.plot
      rw [Plot.Apart,first_same,root_same]
      exact pair.1
    · have old := (entries.ready c (by simp [later])).planted.old
      exact .inr (Nat.lt_of_lt_of_le old new)

end Entries

/-- Going through the entries of a mapping modifies each of them. -/
theorem settleEntries_run (host : Host) (depth : Nat) {s₀ : Store} {first x level : Nat} {path : List Text}
    (anchored : s₀.Anchored (Stretch first x) x path level) (live : (s₀.node x).replacedBy = none)
    (room : level + (x + 1 - first) ≤ s₀.nodes.size) (dotless : Dotless path) (rest done : List Branch)
    (entries : Entries s₀ first x done rest s)
    (keys : ∀ b ∈ rest, ('.' : CodeUnit) ∉ b.key.units) (plain : ∀ o ∈ s.session.overrides, o.value.isPlain settings = true) :
    ∃ (t : Store) (parts : List Branch),
      Runs (Resolve.settleEntries (Calls.ofDepth host (depth + 3)) x (rest.map Branch.entry)) s (.ok ()) t ∧
      Entries s₀ first x (done ++ parts) [] t ∧
      parts.map (fun b => (b.key,b.plot.value)) = rest.map (fun b =>
        (b.key,(Overrides.replacement s.session.overrides (path ++ [b.key])).getD b.plot.value)) ∧
      Advance (fun id : Nat => Stretch first x id ∨ s₀.nodes.size ≤ id) (fun used => ∃ b ∈ rest, used = path ++ [b.key]) s t := by
  induction rest generalizing done s with
  | nil =>
    refine ⟨s,[],Runs.ok _ _,by simpa using entries,rfl,(Advance.refl _ s).mono (fun _ _ within => within) (by simp)⟩
  | cons b rest ih =>
    have grows := entries.frame.grows
    have x_old := entries.x_old
    have x_live : (s.node x).replacedBy = none := by
      rw [entries.node]
      exact live
    have inner := entries.inner b (by simp)
    have x_apart : x ≠ b.plot.root ∧ x ≠ b.entry :=
      ⟨fun same => entries.not_above (by simp) ⟨same ▸ (entries.ready b (by simp)).planted.least,Nat.le_of_eq same⟩,by omega⟩
    have anchored_now : s.Anchored (fun id : Nat => Stretch first x id ∨ s₀.nodes.size ≤ id) x path level := by
      intro u frame parent bound u_live
      refine anchored u (entries.frame.followed frame fun id old here => here.resolve_right (Nat.not_le.mpr old)) ?_ ?_ u_live
      · rw [parent,entries.node]
      · rw [bound,entries.node]
    obtain ⟨t,q,run,modified,undeclared,ready,value,place,advance⟩ := modifyEntry_run host depth anchored_now
      (fun id here => entries.covers id here) (by rw [entries.node]) (by simp) x_live (by omega) x_apart
      (entries.outside b (by simp) b (by simp)) (entries.waiting b (by simp)) (entries.ready b (by simp)) (by omega)
      (dotless.append (keys b (by simp))) plain
    obtain ⟨u,parts,runs,final,values,further⟩ := ih _ (entries.advance modified undeclared ready place advance.toFrame)
      (fun c member => keys c (List.mem_cons_of_mem _ member)) (advance.counted.values (p := fun v => v.isPlain settings = true) plain)
    refine ⟨u,⟨b.key,b.entry,q⟩ :: parts,?_,by simpa using final,?_,?_⟩
    · refine getNode_run.bind ?_
      rw [x_live]
      exact run.bind runs
    · rw [List.map_cons,values,advance.counted.replacement,value]
      rfl
    · have here := advance.mono (fun id _ => entries.covers id) fun _ => Iff.rfl
      refine (here.trans further fun _ _ within => within).mono (fun _ _ within => within) fun used => ?_
      simp

end ConfTree

