import Mathlib.Data.List.Nodup
import ConfTree.Proofs.Copies.Entry
import ConfTree.Proofs.Overrides.Resolve

/-!
A mapping that extends another entry of the root. What takes its place is planted from what both were declared with, its own
entries first and then those that only the base has (`Pairs.overlay`), whatever the base's own values were replaced by
(`extension_run`).
-/
namespace ConfTree

open StoreM

variable {settings : Settings} {s t u : Store} {host : Host} {calls : Calls} {names : Pairs}

namespace Pairs

/-- Pairs laid over others: their own, then those that only the others have. -/
def overlay (own base : Pairs) : Pairs := own ++ base.filter fun p => !contains own p.1

variable {own base : Pairs} {key : Text}

theorem contains_iff : contains own key = true ↔ key ∈ keys own := by
  simp [contains,get?,keys]

end Pairs

/-- The content laid together from two mappings that declare nothing plants the pairs of one laid over those of the other, where
what entries of the base inherit on is nothing. -/
theorem overlay_spells {x y : Nat} {cs cs' : List (EntryHead × Content)} {own base : Pairs} (own_spells : Spells (· = none) cs own)
    (base_spells : Spells (· = none) cs' base) (own_content : s.content x = .mapping cs) (base_content : s.content y = .mapping cs')
    (own_entries : ∀ key, (s.findEntry x key).isNone = !Pairs.contains own key)
    (base_entries : ∀ key e, s.findEntry y key = some e → s.Undeclared e) :
    ∃ merged, Modify.overlay s x y = .mapping merged ∧ Spells s.NothingInherited merged (Pairs.overlay own base) := by
  have nothing (head : EntryHead) (alone : head.inherited = none) : s.NothingInherited head.inherited := by
    rw [alone]
    simp [Store.NothingInherited]
  refine ⟨_,by rw [Modify.overlay,own_content,base_content],List.rel_append ?own ?added⟩
  case own =>
    refine List.forall₂_map_left_iff.mpr (own_spells.imp fun c p here => ?_)
    obtain ⟨head,content⟩ := c
    obtain ⟨plain,alone,plants⟩ := here
    simp only
    split
    · next found => exact ⟨plain,fun base inherits => Option.some.inj inherits ▸ base_entries _ _ found,plants⟩
    · exact ⟨plain,nothing head alone,plants⟩
  case added =>
    refine (List.rel_filter (fun {c p} here => ?_) base_spells).imp fun c p here => ⟨here.1,nothing c.1 here.2.1,here.2.2⟩
    show (s.findEntry x c.1.key.name).isNone = true ↔ _
    rw [own_entries,here.1]

/-- The keys of a mapping that waits are those of its entries. -/
theorem Laid.findEntry_isNone {first x : Nat} {branches : List Branch} (laid : Laid s first x branches) (key : Text) :
    (s.findEntry x key).isNone = !Pairs.contains (branches.map fun b => (b.key,b.plot.value)) key := by
  have entry (b : Branch) (member : b ∈ branches) : s.entryKey b.entry = b.key := by
    obtain ⟨_,_,body⟩ := (laid.waiting b member).body
    rw [Store.entryKey,body]
  rw [Bool.eq_iff_iff,Bool.not_eq_true',Option.isNone_iff_eq_none,Store.findEntry,Store.entries,laid.body,List.find?_eq_none,
    ← Bool.not_eq_true,Pairs.contains_iff,Pairs.keys,List.map_map]
  refine ⟨fun absent member => ?_,fun absent e member same => absent ?_⟩
  · obtain ⟨b,among,rfl⟩ := List.mem_map.mp member
    exact absent b.entry (List.mem_map_of_mem among) (beq_iff_eq.mpr (entry b among))
  · obtain ⟨b,among,rfl⟩ := List.mem_map.mp member
    rw [entry b among] at same
    exact List.mem_map.mpr ⟨b,among,beq_iff_eq.mp same⟩

/-- No entry of a settled mapping whose keys declare nothing declares anything. -/
theorem Entries.undeclared_of_findEntry {s₀ : Store} {first x : Nat} {branches : List Branch} (entries : Entries s₀ first x branches [] s)
    {key : Text} {e : NodeId} (found : s.findEntry x key = some e) : s.Undeclared e := by
  have member := List.mem_of_find?_eq_some found
  rw [Store.entries,entries.node] at member
  obtain ⟨b,among,rfl⟩ := List.mem_map.mp member
  exact entries.undeclared b (by simpa using among)

/-- A mapping that was planted with heads that declare and inherit nothing waits. -/
theorem Sown.laid {first x : Nat} {heads : List EntryHead} {branches : List Branch} (sown : Sown s first x heads branches)
    (idle : ∀ id, Stretch first x id → ¬ (s.node id).Over)
    (each : ∀ b ∈ branches, (s.node b.entry).Blank ∧ (s.node b.entry).parent = some x ∧ ∃ inherited, s.NothingInherited inherited ∧
      (s.node b.entry).body = .entry ⟨⟨b.key,.none⟩,inherited⟩ b.plot.root b.plot.root none .pending none) : Laid s first x branches where
  old := sown.old
  live := sown.blank.live
  body := sown.body
  least := sown.least
  within := sown.within
  apart := sown.apart
  parents := sown.parents
  waiting b member := by
    obtain ⟨blank,parent,body⟩ := each b member
    exact ⟨blank,parent,body⟩
  planted := sown.planted
  idle := idle

/-! ## The base -/

variable {root : Nat} {rest : List Nat} {b d : Branch}

/-- An entry of the root that was modified is found under its key. -/
theorem Heading.child_run (heading : Heading s root (b.entry :: rest)) (modified : Modified s root b)
    (live : (s.node b.plot.root).replacedBy = none) (unmarked : b.key.startsWith "*" = false) (host : Host) (depth : Nat) :
    Runs ((Calls.ofDepth host (depth + 2)).child root (.key b.key)) s (.ok b.plot.root) s := by
  have settle : Runs ((Calls.ofDepth host (depth + 1)).settle root) s (.ok ()) s := by
    refine getNode_run.bind ?_
    rw [heading.body]
    exact Runs.ok _ _
  have settled : Runs (Navigate.settled (Calls.ofDepth host (depth + 1)) root) s (.ok root) s := by
    refine current_run.bind ?_
    rw [Store.current_of_live heading.live]
    refine settle.bind (getNode_run.bind ?_)
    rw [heading.live]
    exact Runs.ok _ _
  have select : Runs (Navigate.selectEntry root b.key) s (.ok (b.entry,false)) s := by
    obtain ⟨_,_,head,_,_,key,body⟩ := modified
    have found : s.findEntry root b.key = some b.entry := by
      rw [Store.findEntry,Store.entries,heading.body]
      exact List.find?_cons_of_pos (beq_iff_eq.mpr (by rw [Store.entryKey,body]; exact key))
    refine (heading.located.nameOf_run (Nat.zero_le _)).bind ?_
    rw [unmarked]
    refine get_run.bind ?_
    simp only [Bool.false_eq_true,if_false,found]
    exact Runs.ok _ _
  refine settled.bind (getNode_run.bind ?_)
  rw [heading.body]
  exact select.bind (modified.entryValue_run host depth live)

/-- A settled mapping in the value slot of an entry of the root, the values of its own entries waiting to be resolved. -/
structure Opened (s : Store) (b : Branch) (branches : List Branch) : Prop where
  gathered : Gathered s b.plot.root branches
  blank : (s.node b.plot.root).Blank
  parent : (s.node b.plot.root).parent = some b.entry
  room : ∀ c ∈ branches, 4 + (c.plot.root + 1 - c.plot.first) ≤ s.nodes.size

/-- The nodes of such a mapping that matter when its values are resolved. -/
def Occupied (b : Branch) (branches : List Branch) (id : Nat) : Prop :=
  id = b.plot.root ∨ ∃ c ∈ branches, id = c.entry ∨ c.plot.Holds id

theorem Opened.frame {branches : List Branch} {inside : NodeId → Prop} (opened : Opened s b branches) (frame : s.Frame inside t)
    (old : b.plot.root < s.nodes.size) (apart : ∀ id, Occupied b branches id → ¬ inside id) : Opened t b branches := by
  have same (id : Nat) (inner : id < s.nodes.size) (here : Occupied b branches id) : t.node id = s.node id :=
    frame.same id inner (apart id here)
  have at_root := same _ old (.inl rfl)
  refine ⟨opened.gathered.frame frame.grows (congrArg Node.body at_root) (fun c member => ?_) fun c member id holds => ?_,at_root ▸ opened.blank,
    at_root ▸ opened.parent,fun c member => Nat.le_trans (opened.room c member) frame.grows⟩
  · exact same _ (opened.gathered.modified c member).old (.inr ⟨c,member,.inl rfl⟩)
  · exact same id (Nat.lt_of_le_of_lt holds.2 (opened.gathered.ready c member).planted.old) (.inr ⟨c,member,.inr holds⟩)

/-- A mapping in the value slot of an entry that waits to be settled. -/
structure Closed (s : Store) (entry first x : Nat) (branches : List Branch) : Prop where
  laid : Laid s first x branches
  blank : (s.node x).Blank
  parent : (s.node x).parent = some entry

/-- It waits on as long as its nodes are not worked on. -/
theorem Closed.frame {entry first x : Nat} {branches : List Branch} {inside : NodeId → Prop} (closed : Closed s entry first x branches)
    (frame : s.Frame inside t) (idle : ∀ id : Nat, inside id → ¬ (s.node id).Over) (apart : ∀ id, Stretch first x id → ¬ inside id) :
    Closed t entry first x branches := by
  obtain ⟨laid,blank,parent⟩ := closed
  have at_root : Stretch first x x := ⟨laid.least,Nat.le_refl _⟩
  have same := frame.same x laid.old (apart x at_root)
  exact ⟨laid.frame frame idle (fun id holds _ => apart id holds) (same ▸ laid.live) (congrArg Node.body same) (same ▸ laid.idle x at_root),
    same ▸ blank,same ▸ parent⟩

/-- The branch of the base, before that of the mapping that extends it. -/
structure Order (b d : Branch) (root : Nat) : Prop where
  base : b.plot.root < b.entry
  between : b.entry < d.plot.first
  own : d.plot.root < d.entry
  above : d.entry < root

/-- A base is settled where it stands. -/
theorem Heading.open_run {replacement : List Text → Option Value} {a : Identity} {pairs : Pairs}
    (heading : Heading s root (b.entry :: rest)) (modified : Modified s root b) (ready : Ready s b.entry b.plot)
    (value : b.plot.value = .mapping a pairs) (plain : b.plot.value.isPlain settings = true) (bare : Key.isBare b.key = true)
    (below : b.plot.root < b.entry ∧ b.entry < root) (informed : Informed settings replacement s) (host : Host) (depth : Nat) :
    ∃ t branches, Runs ((Calls.ofDepth host (depth + 5)).settled b.plot.root) s (.ok b.plot.root) t ∧ s.Faithful t ∧
      (∀ key e, t.findEntry b.plot.root key = some e → t.Undeclared e) ∧ Opened t b branches ∧
      Replaced replacement [b.key] pairs branches ∧
      (∀ id, Occupied b branches id → (Stretch b.plot.first b.plot.root id ∨ s.nodes.size ≤ id) ∧ id < t.nodes.size) ∧
      Advance (Stretch b.plot.first b.plot.root) (fun used => ∃ p ∈ pairs, used = [b.key,p.1]) s t := by
  have planted : Planted s ⟨b.plot.first,b.plot.root,.mapping a pairs⟩ := value ▸ ready.planted
  obtain ⟨own,rfl,laid⟩ := planted.laid ready.idle
  obtain ⟨_,each_plain⟩ := Value.isPlain_mapping.mp (value ▸ plain)
  obtain ⟨live,parent,⟨key,inherited⟩,declared,evaluated,named,body⟩ := modified
  have root_old := heading.old
  have anchored : s.Anchored (Stretch b.plot.first b.plot.root) b.plot.root [b.key] 2 := named ▸
    heading.anchored (List.mem_cons_self ..) live parent body ready.parent
      ⟨fun within => Nat.not_le.mpr (Nat.lt_trans below.1 below.2) within.2,fun within => Nat.not_le.mpr below.1 within.2⟩
  have room : 2 + (b.plot.root + 1 - b.plot.first) ≤ s.nodes.size := by omega
  have bare_each (c : Branch) (member : c ∈ own) : Key.isBare c.key = true := (each_plain _ (List.mem_map_of_mem member)).1
  obtain ⟨t,branches,settle,entries,values,advance⟩ := laid.settle_run host depth anchored room
    (by simpa [Dotless] using Key.bare_dotless bare) bare_each informed
  have grows := advance.grows
  have t_live : (t.node b.plot.root).replacedBy = none := by
    rw [entries.node]
    exact laid.live
  have blank := ready.planted.blank
  refine ⟨t,branches,?run,((Faithful.ofDepth host (depth + 4)).settle b.plot.root s _ t trivial settle).2,
    fun key e found => entries.undeclared_of_findEntry found,⟨entries.gathered,?blank,?parent,entries.room room⟩,?values,?occupied,
    advance.mono (fun _ _ within => within) fun used => ?used⟩
  case run =>
    refine current_run.bind ?_
    rw [Store.current_of_live laid.live]
    refine settle.bind (getNode_run.bind ?_)
    rw [t_live]
    exact Runs.ok _ _
  case blank =>
    rw [entries.node]
    exact ⟨blank.live,blank.shown,blank.optional,blank.untyped,blank.untransformed,blank.pending⟩
  case parent =>
    rw [entries.node]
    exact ready.parent
  case values =>
    rw [Replaced,values,List.map_map]
    rfl
  case occupied =>
    have least := ready.planted.least
    rintro id (rfl | ⟨c,member,rfl | holds⟩)
    · exact ⟨.inl ⟨least,Nat.le_refl _⟩,by omega⟩
    · obtain ⟨lower,upper⟩ := entries.inner c (by simpa using member)
      exact ⟨.inl ⟨lower,Nat.le_of_lt upper⟩,by omega⟩
    · exact ⟨entries.held ⟨c,member,holds⟩,Nat.lt_of_le_of_lt holds.2 (entries.ready c (by simpa using member)).planted.old⟩
  case used => simp

/-! ## Extending -/

/-- What extending leaves: the base open, and in the place of the mapping another one that is closed. -/
structure Extended (s : Store) (b d : Branch) (branches merged : List Branch) (first m : Nat) (t : Store) : Prop where
  opened : Opened t b branches
  closed : Closed t d.entry first m merged
  new : s.nodes.size ≤ first
  occupied : ∀ id, Occupied b branches id → (Stretch b.plot.first b.plot.root id ∨ s.nodes.size ≤ id) ∧ id < first

theorem Extended.frame {branches merged : List Branch} {first m : Nat} {inside : NodeId → Prop}
    (extended : Extended s b d branches merged first m t) (frame : t.Frame inside u) (idle : ∀ id : Nat, inside id → ¬ (t.node id).Over)
    (apart : ∀ id : Nat, inside id → ¬ Stretch b.plot.first b.plot.root id ∧ id < s.nodes.size) :
    Extended s b d branches merged first m u := by
  obtain ⟨opened,closed,new,occupied⟩ := extended
  have least := closed.laid.least
  have old := closed.laid.old
  have root := occupied b.plot.root (.inl rfl)
  refine ⟨opened.frame frame (by omega) fun id here within => ?_,closed.frame frame idle fun id here within => ?_,new,occupied⟩
  · obtain ⟨outside,old⟩ := apart id within
    exact (occupied id here).1.elim outside (Nat.not_le.mpr old)
  · have := here.1
    have := (apart id within).2
    omega

theorem Extended.since {branches merged : List Branch} {first m : Nat} (extended : Extended t b d branches merged first m u)
    (grows : s.nodes.size ≤ t.nodes.size) : Extended s b d branches merged first m u where
  opened := extended.opened
  closed := extended.closed
  new := Nat.le_trans grows extended.new
  occupied id here := (extended.occupied id here).imp_left (Or.imp_right (Nat.le_trans grows))

/-- The nodes that extending works on. -/
def Extending (b d : Branch) (id : Nat) : Prop := Stretch b.plot.first b.plot.root id ∨ id = d.plot.root ∨ id = d.entry

/-- Two mappings, both declared as they are, the second to be laid over the first. -/
structure Layers (s : Store) (b d : Branch) (base own : Pairs) : Prop where
  base_value : ∃ a, b.plot.value = .mapping a base
  own_value : ∃ a, d.plot.value = .mapping a own
  base_built : ∃ cs, s.BuiltFrom b.plot.root (.mapping cs) ∧ Spells (· = none) cs base
  own_built : ∃ cs, s.BuiltFrom d.plot.root (.mapping cs) ∧ Spells (· = none) cs own

theorem Layers.faithful {base own : Pairs} (layers : Layers s b d base own) (faithful : s.Faithful t) : Layers t b d base own := by
  obtain ⟨base_value,own_value,⟨cs',base_built,base_spells⟩,cs,own_built,own_spells⟩ := layers
  exact ⟨base_value,own_value,⟨cs',base_built.faithful faithful,base_spells⟩,cs,own_built.faithful faithful,own_spells⟩

/-- Extending puts in the place of a mapping one that is made of its own pairs laid over those of the base; what the base's values were
replaced by does not show there. -/
theorem extend_run {replacement : List Text → Option Value} {own base : Pairs} {source : DeclarationSource} {evaluated : Option Declaration}
    (layers : Layers s b d base own) (heading : Heading s root (b.entry :: rest)) (modified : Modified s root b)
    (base_ready : Ready s b.entry b.plot) (base_plain : b.plot.value.isPlain settings = true) (bare : Key.isBare b.key = true)
    (unmarked : b.key.startsWith "*" = false) (address : Address.parse b.key = .ok [.select (.key b.key)])
    (member : d.entry ∈ rest) (own_ready : Ready s d.entry d.plot) (live : (s.node d.entry).replacedBy = none)
    (parent : (s.node d.entry).parent = some root)
    (body : (s.node d.entry).body = .entry ⟨⟨d.key,source⟩,none⟩ d.plot.root d.plot.root none .active evaluated)
    (order : Order b d root) (top : s.session.root = root) (informed : Informed settings replacement s) (host : Host) (depth : Nat) :
    ∃ t m branches merged first, Runs (Modify.extend (Calls.ofDepth host (depth + 5)) d.plot.root (.address b.key)) s (.ok m) t ∧
      Extended s b d branches merged first m t ∧
      Replaced replacement [b.key] base branches ∧
      merged.map (fun c => (c.key,c.plot.value)) = Pairs.overlay own base ∧
      t.node d.entry = { s.node d.entry with body := .entry ⟨⟨d.key,source⟩,none⟩ m d.plot.root none .active evaluated } ∧
      Advance (Extending b d) (fun used => ∃ p ∈ base, used = [b.key,p.1]) s t := by
  obtain ⟨a,base_value⟩ := layers.base_value
  obtain ⟨c,own_value⟩ := layers.own_value
  obtain ⟨cs',base_built,base_spells⟩ := layers.base_built
  obtain ⟨cs,own_built,own_spells⟩ := layers.own_built
  obtain ⟨base_inner,between,own_inner,above⟩ := order
  have root_old := heading.old
  have own_least := own_ready.planted.least
  have own_live := own_ready.planted.blank.live
  have base_apart (id : Nat) (later : b.entry < id) : ¬ Stretch b.plot.first b.plot.root id := fun within => by
    have := within.2
    omega
  have located := heading.value (List.mem_cons_of_mem _ member) live parent body own_live own_ready.parent
  have found : Runs (Modify.baseNode (Calls.ofDepth host (depth + 5)) d.plot.root (.address b.key)) s (.ok b.plot.root) s := by
    refine (located.requireSession_run (by omega)).bind (getSession_run.bind (current_run.bind ?_))
    rw [top,Store.current_of_live heading.live,address]
    dsimp only
    rw [List.foldlM_cons]
    exact (heading.child_run modified base_ready.planted.blank.live unmarked host (depth + 3)).bind (Runs.ok _ _)
  obtain ⟨u,branches,settled,faithful,undeclared,opened,values,occupied,advance⟩ := heading.open_run modified base_ready base_value base_plain
    bare ⟨base_inner,by omega⟩ informed host depth
  have grows := advance.grows
  have same (id : Nat) (old : id < s.nodes.size) (later : b.entry < id) : u.node id = s.node id := advance.same id old (base_apart id later)
  have own_ready' : Ready u d.entry d.plot := own_ready.frame advance.toFrame fun id holds => base_apart id (by have := holds.1; omega)
  -- Both are copied as they were declared, though the base was settled.
  have own_planted : Planted u ⟨d.plot.first,d.plot.root,.mapping c own⟩ := own_value ▸ own_ready'.planted
  obtain ⟨own_branches,own_pairs,own_laid⟩ := own_planted.laid own_ready'.idle
  obtain ⟨merged_content,overlay,spells⟩ := overlay_spells own_spells base_spells (own_built.faithful faithful).content
    (base_built.faithful faithful).content (fun key => by rw [own_laid.findEntry_isNone,own_pairs]) undeclared
  obtain ⟨w,m,merged,plant,grown,sown,plots,size,_,_⟩ := plantMapping_run spells.plants u
  obtain ⟨pairs,each⟩ := spells.sown plots sown.entries
  have larger := grown.grows
  have new := sown.least
  have kept (id : Nat) (old : id < s.nodes.size) (later : b.entry < id) : w.node id = s.node id := by
    rw [grown.node (by omega),same id old later]
  have entry_old : d.entry < s.nodes.size := by omega
  have entry_kept := kept d.entry entry_old (by omega)
  have own_kept := kept d.plot.root (by omega) (by omega)
  have place : Place w d.entry d.plot.root fun y => .entry ⟨⟨d.key,source⟩,none⟩ y d.plot.root none .active evaluated :=
    place_value (by omega) (by omega) (by rw [entry_kept,live]) (by rw [entry_kept,body])
  obtain ⟨t,replaced,put⟩ := put_run place (y := m) sown.old (by omega) (by omega)
    (by rw [own_kept]; exact own_ready.planted.blank.unasked) (by rw [own_kept,own_ready.parent]) (show 2 ≤ w.nodes.size by omega) fun t put => by
      have heading' := heading.same ((put.other root (by omega) (by omega) (by omega)).trans (kept root root_old (by omega)))
      refine show t.Located m [d.key] 2 from heading'.value (List.mem_cons_of_mem _ member) ?_ ?_ (congrArg Node.body put.around) ?_ ?_
      · rw [put.around,entry_kept,live]
      · rw [put.around,entry_kept,parent]
      · rw [put.new]
        exact sown.blank.live
      · rw [put.new]
  have own_kind : s.kind d.plot.root = .mapping := by
    rw [Store.kind,Node.kind,← same d.plot.root (by omega) (by omega),own_laid.body]
    rfl
  have base_kind : u.kind b.plot.root = .mapping := by
    rw [Store.kind,Node.kind,opened.gathered.body]
    rfl
  have run : Runs (Modify.extend (Calls.ofDepth host (depth + 5)) d.plot.root (.address b.key)) s (.ok m) t := by
    refine current_run.bind ?_
    rw [Store.current_of_live own_live]
    refine kindOf_run.bind ?_
    rw [own_kind]
    rw [if_neg (not_not.mpr rfl)]
    refine found.bind (settled.bind (kindOf_run.bind ?_))
    rw [base_kind]
    simp only [ne_eq,not_true_eq_false,if_false]
    rw [if_neg (show ¬ b.plot.root = d.plot.root by omega)]
    refine get_run.bind ?_
    rw [overlay]
    exact plant.bind replaced
  have idle (id : Nat) (here : (id = d.plot.root ∨ id = d.entry) ∨ id = m) : ¬ (w.node id).Over := by
    rcases here with (rfl | rfl) | rfl
    · rw [own_kept]
      exact own_ready.idle _ ⟨own_least,Nat.le_refl _⟩
    · rw [entry_kept,Node.Over,body]
      rintro ⟨⟩
    · exact grown.idle _ new
  have laid : Laid w u.nodes.size m merged := sown.laid (fun id holds => grown.idle id holds.1) fun c among => by
    obtain ⟨blank,above,inherited,nothing,here⟩ := each c among
    exact ⟨blank,above,inherited,fun base from_base => (nothing base from_base).frame grown.toFrame fun _ none => none.elim,here⟩
  have frame : u.Frame (fun id => (id = d.plot.root ∨ id = d.entry) ∨ id = m) t :=
    (grown.toFrame.mono fun _ _ none => none.elim).trans put.advance.toFrame
  have blank := sown.blank
  refine ⟨t,m,branches,merged,u.nodes.size,run,⟨?opened,⟨?laid,?blank,by rw [put.new]⟩,grows,occupied⟩,values,pairs,?around,?advance⟩
  case opened =>
    refine opened.frame frame (by omega) fun id here => ?_
    obtain ⟨place,old⟩ := occupied id here
    rintro ((rfl | rfl) | rfl)
    · exact place.elim (base_apart _ (by omega)) (by omega)
    · exact place.elim (base_apart _ (by omega)) (by omega)
    · omega
  case laid =>
    refine laid.frame put.advance.toFrame idle (fun id holds differ => ?_) (by rw [put.new]; exact blank.live) (by rw [put.new]) ?_
    · have lower : u.nodes.size ≤ id := holds.1
      rintro ((rfl | rfl) | same)
      · omega
      · omega
      · exact differ same
    · rw [put.new]
      exact grown.idle m new
  case blank =>
    rw [put.new]
    exact ⟨blank.live,blank.shown,blank.optional,blank.untyped,blank.untransformed,blank.pending⟩
  case around => rw [put.around,entry_kept]
  case advance =>
    have planted : Advance (fun _ => False) (fun _ => False) u w := ⟨grown.toFrame,by rw [grown.session],by rw [grown.session]; exact .refl _⟩
    refine (((advance.mono (fun _ _ => .inl) fun _ => Iff.rfl).trans planted fun _ _ none => none.elim).trans put.advance
      fun id old here => ?_).mono (fun _ _ within => within) (by simp)
    exact here.elim .inr fun same => absurd same (Nat.ne_of_lt (by omega))

/-- Calling the factory of extensions with a text gives a modifier that extends what the text leads to. -/
theorem eval_extends_run {n : Text} (known : s.session.context.lookup n = some (.object (.factory .extends))) (unknown : names.lookup n = none)
    (host : Host) (depth : Nat) (base : Text) :
    Runs (Eval.eval (Expression.env host (Calls.ofDepth host (depth + 1)) s.session.context names) []
        (.call (.name n) [.positional (.literal (.text base))])) s
      (.ok (.object (.modifier s.nextIdentity (.extends (.address base))))) (s.issued 1) := by
  have given : Runs (Eval.evalArguments (Expression.env host (Calls.ofDepth host (depth + 1)) s.session.context names) [] n ⟨[],[]⟩
      [.positional (.literal (.text base))]) s (.ok ⟨[.text base],[]⟩) s := rfl
  have made : Runs ((Expression.env host (Calls.ofDepth host (depth + 1)) s.session.context names).invoke (.factory .extends)
      [.text base] []) s (.ok (.object (.modifier s.nextIdentity (.extends (.address base))))) (s.issued 1) := rfl
  exact (eval_name_run unknown known).bind (given.bind (Runs.tryCatch_ok made))

/-- Modifying an entry whose key declares the extension of another entry of the root. -/
theorem extension_run {replacement : List Text → Option Value} {own base : Pairs} {source n : Text}
    (awaiting : Awaiting s root ⟨none,some source⟩ d)
    (parsed : Grammar.parseList source = .ok [.call (.name n) [.positional (.literal (.text b.key))]])
    (short : Expression.guardLength settings.maxExpressionLength source = .ok source)
    (known : s.session.context.lookup n = some (.object (.factory .extends)))
    (unreserved : n ∉ (["root","self","unit","ref","node"] : List Text))
    (layers : Layers s b d base own) (heading : Heading s root (b.entry :: rest)) (modified : Modified s root b)
    (base_ready : Ready s b.entry b.plot) (base_plain : b.plot.value.isPlain settings = true) (bare : Key.isBare b.key = true)
    (unmarked : b.key.startsWith "*" = false) (address : Address.parse b.key = .ok [.select (.key b.key)])
    (member : d.entry ∈ rest) (bare' : Key.isBare d.key = true) (order : Order b d root) (top : s.session.root = root)
    (informed : Informed settings replacement s) (unreplaced : replacement [d.key] = none) (host : Host) (depth : Nat) :
    ∃ t m branches merged first, Runs ((Calls.ofDepth host (depth + 7)).settle d.entry) s (.ok ()) t ∧
      Extended s b d branches merged first m t ∧ Modified t root ⟨d.key,d.entry,⟨first,m,d.plot.value⟩⟩ ∧
      Replaced replacement [b.key] base branches ∧
      merged.map (fun c => (c.key,c.plot.value)) = Pairs.overlay own base ∧
      Advance (Extending b d) (fun used => ∃ p ∈ base, used = [b.key,p.1]) s t := by
  have root_old := heading.old
  have entry_old := awaiting.old
  have own_least := awaiting.ready.planted.least
  have order_again := order
  obtain ⟨base_inner,between,own_inner,above⟩ := order_again
  have root_apart : root ≠ d.entry := by omega
  have among : d.entry ∈ b.entry :: rest := List.mem_cons_of_mem _ member
  obtain ⟨s₁,i,advance,_,faithful,after,finish⟩ := awaiting.modifier_run heading among root_apart bare' (informed.in_overrides ▸ unreplaced)
    host (depth + 5) fun u names advance keys => ⟨u.nextIdentity,1,modifiers_run parsed (by rw [advance.settings,informed.in_settings]; exact short)
      (eval_extends_run (by rw [advance.context]; exact known) (Pairs.lookup_of_keys keys unreserved) host (depth + 4) b.key)⟩
  have same (id : Nat) (old : id < s.nodes.size) (differ : id ≠ d.entry) : s₁.node id = s.node id := advance.same id old differ
  obtain ⟨s₂,m,branches,merged,first,extend,extended,values,pairs,around,advance₂⟩ := extend_run (layers.faithful faithful)
    (heading.same (same root root_old root_apart)) (modified.same (same b.entry modified.old (by omega)))
    (base_ready.frame advance.toFrame fun id holds => Nat.ne_of_lt (Nat.lt_of_le_of_lt holds.2 (by omega))) base_plain bare unmarked address
    member (awaiting.ready.frame advance.toFrame fun id holds here => awaiting.outside (here ▸ holds))
    (by rw [after]; exact awaiting.blank.live) (by rw [after]; exact awaiting.parent) (congrArg Node.body after) order
    (advance.top.trans top) (informed.advance advance) host depth
  rw [after] at around
  have grows := advance.grows
  have root_last : s₂.node root = s.node root := by
    rw [advance₂.same root (by omega) fun within => ?_,same root root_old root_apart]
    rcases within with within | rfl | rfl
    · have := within.2
      omega
    · omega
    · omega
  obtain ⟨t,settle,ended,_,last⟩ := finish m s₂ extend.map_ok extended.closed.laid.live around root_last
  have whole : Advance (Extending b d) (fun used => ∃ p ∈ base, used = [b.key,p.1]) s t :=
    (((advance.mono (fun _ _ here => .inr (.inr here)) fun _ => Iff.rfl).trans advance₂ fun _ _ within => within).trans ended
      fun _ _ here => .inr (.inr here)).mono (fun _ _ within => within) (by simp)
  refine ⟨t,m,branches,merged,first,settle,?_,awaiting.modified last,values,pairs,whole⟩
  refine (extended.frame ended.toFrame (fun id here => ?_) fun id here => ?_).since grows
  · rw [here,around]
    rintro ⟨⟩
  · have outside : ¬ Stretch b.plot.first b.plot.root d.entry := fun within => Nat.not_le.mpr (show b.plot.root < d.entry by omega) within.2
    exact here ▸ ⟨outside,show d.entry < s₁.nodes.size by omega⟩

end ConfTree
