import ConfTree.Proofs.Copies.Places
import ConfTree.Proofs.Copies.Units
import ConfTree.Proofs.Creation
import ConfTree.Proofs.Overrides.Below
import ConfTree.Proofs.Overrides.Reading

/-!
Copies are independent of each other. A root of a base, a mapping that extends it and two entries that load one unit is resolved to what
the base, the mapping laid over the base and the unit twice become, each by just the replacements below its own key (`resolvable_copies`).
-/
namespace ConfTree

open StoreM

variable {settings : Settings} {s t u : Store} {replacement : List Text → Option Value} {root : Nat} {b d p q : Branch} {base own : Pairs}
  {unit : Text} {content : Value} {branches merged : List Branch}

/-! ## Sources -/

/-- The source that declares the extension of the entry `base`. -/
def extendingSource : Text := "extends(\"base\")"

/-- The source that declares that a unit is loaded. -/
def loadingSource : Text := "load"

theorem extendingSource_parsed :
    Grammar.parseList extendingSource = .ok [.call (.name "extends") [.positional (.literal (.text "base"))]] :=
  parseList_of Expr.textCall? (fun _ => Expr.eq_textCall) (by decide +kernel)

theorem loadingSource_parsed : Grammar.parseList loadingSource = .ok [.name "load"] :=
  parseList_of Expr.name? (fun _ => Expr.eq_name) (by decide +kernel)

/-- A session in which both sources can be read and mean what they say. -/
structure Equipped (settings : Settings) (session : Session) : Prop where
  extending_short : Expression.guardLength settings.maxExpressionLength extendingSource = .ok extendingSource
  loading_short : Expression.guardLength settings.maxExpressionLength loadingSource = .ok loadingSource
  extending : session.context.lookup ("extends" : Text) = some (.object (.factory .extends))
  loading : ∃ i, session.context.lookup ("load" : Text) = some (.object (.modifier i (.load none none)))

theorem Equipped.advance {inside : NodeId → Prop} {used : List Text → Prop} (equipped : Equipped settings s.session)
    (advance : Advance inside used s t) : Equipped settings t.session := by
  obtain ⟨extending_short,loading_short,extending,loading⟩ := equipped
  rw [← advance.context] at extending loading
  exact ⟨extending_short,loading_short,extending,loading⟩

/-! ## The entries of the root -/

/-- The branches of the root one after another, each before its entry. -/
structure InOrder (b d p q : Branch) (root : Nat) : Prop where
  base : b.plot.root < b.entry
  to_own : b.entry < d.plot.first
  own : d.plot.root < d.entry
  to_first : d.entry < p.plot.first
  first : p.plot.root < p.entry
  to_second : p.entry < q.plot.first
  second : q.plot.root < q.entry
  above : q.entry < root

/-- The entries of a root: a base, a mapping that extends it and two scalars that name a unit, none of them worked on. -/
structure Prepared (s : Store) (root : Nat) (b d p q : Branch) (base own : Pairs) (unit : Text) : Prop where
  base_entry : Awaiting s root .none b
  own_entry : Awaiting s root ⟨none,some extendingSource⟩ d
  first_entry : Awaiting s root ⟨none,some loadingSource⟩ p
  second_entry : Awaiting s root ⟨none,some loadingSource⟩ q
  layers : Layers s b d base own
  first_unit : p.plot.value = .text unit
  second_unit : q.plot.value = .text unit
  order : InOrder b d p q root
  outside : ∀ id, id ≤ root → (s.node id).unit = none

/-- The keys of the four entries. -/
def copyKeys : List Text := ["base","d","p","q"]

/-- What the four entries are called. -/
structure Named (b d p q : Branch) : Prop where
  base : b.key = "base"
  own : d.key = "d"
  first : p.key = "p"
  second : q.key = "q"

/-- A root whose entries are modified: the base is open, what extends it is closed, and two instances of a unit wait; what was planted
meanwhile lies after the root, one after another. -/
structure Copied (s : Store) (root : Nat) (b d p q : Branch) (branches merged : List Branch) : Prop where
  heading : Heading s root [b.entry,d.entry,p.entry,q.entry]
  modified : ∀ c ∈ [b,d,p,q], Modified s root c
  opened : Opened s b branches
  closed : Closed s d.entry d.plot.first d.plot.root merged
  first : Ready s p.entry p.plot
  second : Ready s q.entry q.plot
  occupied : ∀ id, Occupied b branches id → (id ≤ b.plot.root ∨ root < id) ∧ id < d.plot.first
  base : b.plot.root < b.entry
  entries : b.entry < d.entry ∧ d.entry < p.entry ∧ p.entry < q.entry ∧ q.entry < root
  new : root < d.plot.first ∧ d.plot.root < p.plot.first ∧ p.plot.root < q.plot.first

theorem settleEntries_cons_run {calls : Calls} {mapping entry : Nat} {rest : List Nat} (live : (s.node mapping).replacedBy = none)
    (first : Runs (calls.settle entry) s (.ok ()) t) (others : Runs (Resolve.settleEntries calls mapping rest) t (.ok ()) u) :
    Runs (Resolve.settleEntries calls mapping (entry :: rest)) s (.ok ()) u := by
  refine getNode_run.bind ?_
  rw [live]
  exact first.bind others

/-- Going through a base and what extends it opens the one and closes the other. -/
theorem extending_entries_run {rest : List Nat} (heading : Heading s root (b.entry :: d.entry :: rest)) (at_base : Awaiting s root .none b)
    (at_own : Awaiting s root ⟨none,some extendingSource⟩ d) (layers : Layers s b d base own) (order : Order b d root) (named : b.key = "base")
    (own_bare : Key.isBare d.key = true) (equipped : Equipped settings s.session) (top : s.session.root = root)
    (informed : Informed settings replacement s) (base_plain : b.plot.value.isPlain settings = true)
    (unreplaced : replacement [b.key] = none ∧ replacement [d.key] = none) (host : Host) (depth : Nat) :
    ∃ t m branches merged first,
      (∀ u others, Runs (Resolve.settleEntries (Calls.ofDepth host (depth + 7)) root others) t (.ok ()) u →
        Runs (Resolve.settleEntries (Calls.ofDepth host (depth + 7)) root (b.entry :: d.entry :: others)) s (.ok ()) u) ∧
      Extended s b d branches merged first m t ∧ Modified t root b ∧ Modified t root ⟨d.key,d.entry,⟨first,m,d.plot.value⟩⟩ ∧
      Replaced replacement [b.key] base branches ∧
      merged.map (fun c => (c.key,c.plot.value)) = Pairs.overlay own base ∧
      Advance (Stretch b.plot.first d.entry) (fun used => ∃ p ∈ base, used = [b.key,p.1]) s t ∧ s.Faithful t := by
  obtain ⟨base_inner,between,own_inner,above⟩ := order
  have root_old := heading.old
  have base_least := at_base.ready.planted.least
  have own_least := at_own.ready.planted.least
  have base_bare : Key.isBare b.key = true := by rw [named]; decide +kernel
  obtain ⟨s₁,settle₁,modified₁,ready₁,advance₁,faithful₁⟩ := at_base.plain_run heading (by simp) (by omega) host (depth + 4)
    (by simpa [Dotless] using Key.bare_dotless base_bare) (informed.in_overrides ▸ unreplaced.1)
  have heading₁ := heading.same (advance₁.same root root_old (show ¬ root = b.entry by omega))
  have apart₁ (id : Nat) (later : b.entry < id) : ¬ id = b.entry := by omega
  obtain ⟨t,m,branches,merged,first,settle₂,extended,modified₂,values,pairs,advance₂⟩ := extension_run (n := "extends")
    (at_own.frame advance₁.toFrame (apart₁ _ (by omega)) fun id holds => apart₁ id (Nat.lt_of_lt_of_le between holds.1))
    (by rw [named]; exact extendingSource_parsed) equipped.extending_short (by rw [advance₁.context]; exact equipped.extending)
    (by decide +kernel) (layers.faithful faithful₁) heading₁ modified₁ ready₁ base_plain base_bare (by rw [named]; decide +kernel)
    (by rw [named]; rfl) (by simp) own_bare ⟨base_inner,between,own_inner,above⟩ (advance₁.top.trans top) (informed.advance advance₁)
    unreplaced.2 host depth
  have base_same : t.node b.entry = s₁.node b.entry := by
    refine advance₂.same b.entry modified₁.old fun here => ?_
    rcases here with within | same | same
    · exact Nat.not_le.mpr base_inner within.2
    · omega
    · omega
  refine ⟨t,m,branches,merged,first,fun u others rest_run => ?_,extended.since advance₁.grows,modified₁.same base_same,modified₂,values,pairs,?_,
    faithful₁.trans ((Faithful.ofDepth host (depth + 7)).settle d.entry s₁ _ t trivial settle₂).2⟩
  · exact settleEntries_cons_run heading.live settle₁ (settleEntries_cons_run heading₁.live settle₂ rest_run)
  · refine ((advance₁.mono (fun id _ here => ?_) fun _ => Iff.rfl).trans advance₂ fun id _ here => ?_).mono (fun _ _ within => within) (by simp)
    · have here : id = b.entry := here
      exact ⟨by omega,by omega⟩
    · rcases here with ⟨lower,upper⟩ | rfl | rfl
      · exact ⟨lower,by omega⟩
      · exact ⟨by omega,by omega⟩
      · exact ⟨by omega,by omega⟩

/-- The nodes that instantiating units works on. -/
def Loading (p q : Branch) (id : Nat) : Prop := (id = p.plot.root ∨ id = p.entry) ∨ id = q.plot.root ∨ id = q.entry

/-- Going through two entries that load one unit puts an instance of its own in each of them. -/
theorem loading_entries_run {entries : List Nat} (heading : Heading s root entries) (member : p.entry ∈ entries ∧ q.entry ∈ entries)
    (at_first : Awaiting s root ⟨none,some loadingSource⟩ p) (at_second : Awaiting s root ⟨none,some loadingSource⟩ q)
    (units : p.plot.value = .text unit ∧ q.plot.value = .text unit) (first_inner : p.plot.root < p.entry) (between : p.entry < q.plot.first)
    (second_inner : q.plot.root < q.entry) (above : q.entry < root)
    (outside : ∀ id : Nat, id = root ∨ Loading p q id → (s.node id).unit = none)
    (bare : Key.isBare p.key = true ∧ Key.isBare q.key = true) (equipped : Equipped settings s.session)
    (informed : Informed settings replacement s) (unreplaced : replacement [p.key] = none ∧ replacement [q.key] = none)
    (serves : Serves s unit content) (plain : content.isPlain settings = true) (valid : UnitName.isValid unit = true)
    (nonempty : unit.isEmpty = false) (literal : settings.isLiteral unit = true) (host : Host) (depth : Nat) :
    ∃ t p' q' τ, Runs (Resolve.settleEntries (Calls.ofDepth host (depth + 4)) root [p.entry,q.entry]) s (.ok ()) t ∧
      (Modified t root ⟨p.key,p.entry,p'⟩ ∧ Ready t p.entry p' ∧ p'.value = content) ∧
      (Modified t root ⟨q.key,q.entry,q'⟩ ∧ Ready t q.entry q' ∧ q'.value = content) ∧
      s.nodes.size ≤ p'.first ∧ p'.root < q'.first ∧ Served t unit content τ ∧
      Advance (Loading p q) (fun _ => False) (s.serving [(unit,τ)]) t := by
  have root_old := heading.old
  have first_least := at_first.ready.planted.least
  have second_least := at_second.ready.planted.least
  obtain ⟨_,loading_short,_,i,loading⟩ := equipped
  obtain ⟨s₁,p',τ₁,settle₁,modified₁,ready₁,value₁,new₁,served₁,advance₁⟩ := loading_run serves plain valid nonempty literal at_first
    loadingSource_parsed loading_short loading (by decide +kernel) heading member.1
    ⟨by omega,fun holds => Nat.not_le.mpr (show p.plot.root < root by omega) holds.2⟩ units.1
    (by simpa using ⟨outside root (.inl rfl),outside p.entry (.inr (.inl (.inr rfl))),outside p.plot.root (.inr (.inl (.inl rfl)))⟩) bare.1
    informed unreplaced.1 host depth
  have frame₁ := advance₁.unserved
  have kept (id : Nat) (old : id < s.nodes.size) (differ : id ≠ p.plot.root ∧ id ≠ p.entry) : s₁.node id = s.node id :=
    frame₁.same id old fun here => here.elim differ.1 differ.2
  have grows : s.nodes.size ≤ s₁.nodes.size := frame₁.grows
  have apart (id : Nat) (here : id = q.plot.root ∨ id = q.entry) : id < s.nodes.size ∧ id ≠ p.plot.root ∧ id ≠ p.entry := by omega
  have heading₁ := heading.same (kept root root_old (by omega))
  have serves₁ : Serves s₁ unit content := by
    obtain ⟨load,known,loads⟩ := serves.loader
    exact ⟨⟨load,(congrArg Session.loader advance₁.lasting :).trans known,loads⟩,.inr ⟨τ₁,served₁⟩⟩
  have informed₁ : Informed settings replacement s₁ :=
    (show Informed settings replacement (s.serving [(unit,τ₁)]) from ⟨informed.in_settings,informed.in_overrides,informed.overrides_plain⟩).advance
      advance₁
  have at_second₁ : Awaiting s₁ root ⟨none,some loadingSource⟩ q := by
    refine at_second.frame frame₁ (fun here => here.elim (apart _ (.inr rfl)).2.1 (apart _ (.inr rfl)).2.2) fun id holds here => ?_
    have := holds.1
    have := at_first.old
    rcases here with rfl | rfl
    · omega
    · omega
  have outside₁ : ∀ id ∈ [root,q.entry,q.plot.root], (s₁.node id).unit = none := by
    simp only [List.mem_cons,List.not_mem_nil,or_false,forall_eq_or_imp,forall_eq]
    rw [kept root root_old (by omega),kept q.entry (apart _ (.inr rfl)).1 (apart _ (.inr rfl)).2,
      kept q.plot.root (apart _ (.inl rfl)).1 (apart _ (.inl rfl)).2]
    exact ⟨outside root (.inl rfl),outside q.entry (.inr (.inr (.inr rfl))),outside q.plot.root (.inr (.inr (.inl rfl)))⟩
  obtain ⟨t,q',τ,settle₂,modified₂,ready₂,value₂,new₂,served,advance₂⟩ := loading_run serves₁ plain valid nonempty literal at_second₁
    loadingSource_parsed loading_short (advance₁.context ▸ loading) (by decide +kernel) heading₁ member.2
    ⟨by omega,fun holds => Nat.not_le.mpr (show q.plot.root < root by omega) holds.2⟩ units.2 outside₁ bare.2 informed₁ unreplaced.2 host depth
  have frame₂ := advance₂.unserved
  have first_old := ready₁.planted.old
  have first_later := ready₁.planted.least
  have entry_same : t.node p.entry = s₁.node p.entry := frame₂.same p.entry modified₁.old fun here =>
    here.elim (show p.entry ≠ q.plot.root by omega) (show p.entry ≠ q.entry by omega)
  refine ⟨t,p',q',τ,settleEntries_cons_run heading.live settle₁ (settleEntries_cons_run heading₁.live settle₂ (Runs.ok _ _)),
    ⟨modified₁.same entry_same,ready₁.frame frame₂ fun id holds here => ?_,value₁⟩,⟨modified₂,ready₂,value₂⟩,new₁,by omega,served,?_⟩
  · have := holds.1
    have := apart id here
    omega
  · have first : Advance (Loading p q) (fun _ => False) (s.serving [(unit,τ)]) (s₁.serving [(unit,τ)]) :=
      (advance₁.serving [(unit,τ)]).mono (fun _ _ here => .inl here) fun _ => Iff.rfl
    exact (first.trans advance₂ fun _ _ here => .inr here).mono (fun _ _ here => here) (by simp)

/-- Going through the entries of the root opens the base, closes what extends it and puts an instance of the unit in each of the others. -/
theorem Prepared.settleEntries_run (prepared : Prepared s root b d p q base own unit)
    (heading : Heading s root [b.entry,d.entry,p.entry,q.entry]) (named : Named b d p q)
    (unreplaced : ∀ key ∈ copyKeys, replacement [key] = none) (equipped : Equipped settings s.session) (top : s.session.root = root) (informed : Informed settings replacement s)
    (base_plain : b.plot.value.isPlain settings = true) (serves : Serves s unit content) (plain : content.isPlain settings = true)
    (valid : UnitName.isValid unit = true) (nonempty : unit.isEmpty = false) (literal : settings.isLiteral unit = true) (host : Host)
    (depth : Nat) :
    ∃ t first m p' q' branches merged τ,
      Runs (Resolve.settleEntries (Calls.ofDepth host (depth + 7)) root [b.entry,d.entry,p.entry,q.entry]) s (.ok ()) t ∧
      Copied t root b ⟨d.key,d.entry,⟨first,m,d.plot.value⟩⟩ ⟨p.key,p.entry,p'⟩ ⟨q.key,q.entry,q'⟩ branches merged ∧
      (p'.value = content ∧ q'.value = content) ∧
      Replaced replacement [b.key] base branches ∧
      merged.map (fun c => (c.key,c.plot.value)) = Pairs.overlay own base ∧ Served t unit content τ ∧
      Advance (Stretch b.plot.first q.entry) (fun used => ∃ p ∈ base, used = [b.key,p.1]) (s.serving [(unit,τ)]) t := by
  obtain ⟨base_entry,own_entry,first_entry,second_entry,layers,first_unit,second_unit,order,outside⟩ := prepared
  obtain ⟨base_inner,to_own,own_inner,to_first,first_inner,to_second,second_inner,above⟩ := order
  obtain ⟨base_key,own_key,first_key,second_key⟩ := named
  have root_old := heading.old
  have base_least := base_entry.ready.planted.least
  have own_least := own_entry.ready.planted.least
  have first_least := first_entry.ready.planted.least
  have second_least := second_entry.ready.planted.least
  obtain ⟨t₁,m,branches,merged,first,settle₁,extended,base_modified,own_modified,values,pairs,advance₁,faithful₁⟩ :=
    extending_entries_run heading base_entry own_entry layers ⟨base_inner,to_own,own_inner,by omega⟩ base_key
      (by rw [own_key]; decide +kernel) equipped top informed base_plain (by rw [base_key,own_key]; exact ⟨unreplaced _ (by simp [copyKeys]),unreplaced _ (by simp [copyKeys])⟩)
      host depth
  have same (id : Nat) (old : id < s.nodes.size) (later : d.entry < id) : t₁.node id = s.node id :=
    advance₁.same id old fun within => Nat.not_le.mpr later within.2
  have heading₁ := heading.same (same root root_old (by omega))
  have at_first : Awaiting t₁ root ⟨none,some loadingSource⟩ p := first_entry.frame advance₁.toFrame (fun within => by have := within.2; omega)
    fun id holds within => by
      have := holds.1
      have := within.2
      omega
  have at_second : Awaiting t₁ root ⟨none,some loadingSource⟩ q := second_entry.frame advance₁.toFrame (fun within => by have := within.2; omega)
    fun id holds within => by
      have := holds.1
      have := within.2
      omega
  have within (id : Nat) (here : Loading p q id) : d.entry < id ∧ id ≤ q.entry := by
    rcases here with (rfl | rfl) | rfl | rfl
    all_goals omega
  obtain ⟨t,p',q',τ,settle₂,⟨first_modified,first_ready,first_value⟩,⟨second_modified,second_ready,second_value⟩,new,between,served,advance₂⟩ :=
    loading_entries_run heading₁ (by simp) at_first at_second ⟨first_unit,second_unit⟩ first_inner to_second second_inner above
      (fun id here => by
        obtain ⟨lower,upper⟩ : d.entry < id ∧ id ≤ root := here.elim (fun same => by omega)
          fun here => (within id here).imp_right fun upper => Nat.le_of_lt (Nat.lt_of_le_of_lt upper above)
        rw [same id (by omega) lower]
        exact outside id upper)
      (by rw [first_key,second_key]; exact ⟨by decide +kernel,by decide +kernel⟩)
      (equipped.advance advance₁)
      (informed.advance advance₁) (by rw [first_key,second_key]; exact ⟨unreplaced _ (by simp [copyKeys]),unreplaced _ (by simp [copyKeys])⟩)
      (serves.advance advance₁ faithful₁) plain valid nonempty literal host (depth + 3)
  have frame₂ := advance₂.unserved
  have kept (id : Nat) (old : id < t₁.nodes.size) (apart : id ≤ d.entry ∨ root ≤ id) : t.node id = t₁.node id :=
    frame₂.same id old fun here => by
      have := within id here
      omega
  have extended₂ : Extended s b d branches merged first m t := extended.frame frame₂
    (fun id here => here.elim at_first.idle at_second.idle) fun id here => by
      have := within id here
      exact ⟨fun held => Nat.not_le.mpr (show b.plot.root < id by omega) held.2,by omega⟩
  have base_old := base_modified.old
  have own_old := own_modified.old
  have least := extended.closed.laid.least
  have old := extended.closed.laid.old
  have later := extended.new
  have entries : b.entry < d.entry ∧ d.entry < p.entry ∧ p.entry < q.entry ∧ q.entry < root := by omega
  refine ⟨t,first,m,p',q',branches,merged,τ,settle₁ t _ settle₂,?_,⟨first_value,second_value⟩,values,pairs,served,?_⟩
  · refine ⟨heading₁.same (kept root heading₁.old (by omega)),?_,extended₂.opened,extended₂.closed,first_ready,second_ready,fun id here => ?_,
      base_inner,entries,?_⟩
    · simp only [List.mem_cons,List.not_mem_nil,or_false,forall_eq_or_imp,forall_eq]
      exact ⟨base_modified.same (kept _ base_old (by omega)),own_modified.same (kept d.entry own_old (by omega)),first_modified,second_modified⟩
    · obtain ⟨place,before⟩ := extended₂.occupied id here
      exact ⟨place.imp (fun held => held.2) fun new => by omega,before⟩
    · exact ⟨Nat.lt_of_lt_of_le root_old later,Nat.lt_of_lt_of_le old new,between⟩
  · refine (((advance₁.serving [(unit,τ)]).mono (fun id _ held => ⟨held.1,?_⟩) fun _ => Iff.rfl).trans advance₂ fun id _ here => ?_).mono
      (fun _ _ held => held) (by simp)
    · have := within id here
      exact ⟨by omega,this.2⟩
    · have := held.2
      omega

/-! ## The places of the root -/

/-- The places of the four values, of which the first becomes a mapping of the pairs `opened`. -/
def places (b d p q : Branch) (branches : List Branch) (opened : Pairs) (closed first second : Value) : List Site :=
  [⟨b,Unread b branches,fun used => ∃ c ∈ branches.zip (opened.map Prod.snd), Beneath [b.key,c.1.key] c.2 used⟩,
    ⟨d,d.plot.Holds,Beneath [d.key] closed⟩,⟨p,p.plot.Holds,Beneath [p.key] first⟩,⟨q,q.plot.Holds,Beneath [q.key] second⟩]

namespace Copied

variable {opened : Pairs} {closed v w : Value}

/-- What works in one of the places leaves the root and its entries alone, and those after it. -/
theorem bounds (copied : Copied t root b d p q branches merged) {id : Nat} (here : Around (places b d p q branches opened closed v w) id) :
    (Unread b branches id ∧ (id ≤ b.plot.root ∨ root < id) ∧ id < d.plot.first) ∨ d.plot.first ≤ id := by
  obtain ⟨later,between,between'⟩ := copied.new
  have own_least := copied.closed.laid.least
  have first_least := copied.first.planted.least
  obtain ⟨place,member,within⟩ := here
  simp only [places,List.mem_cons,List.not_mem_nil,or_false] at member
  rcases member with rfl | rfl | rfl | rfl
  · exact .inl ⟨within,copied.occupied id (within.imp_right fun ⟨c,member,holds⟩ => ⟨c,member,.inr holds⟩)⟩
  all_goals
    have lower := within.1
    exact .inr (by omega)

/-- The four values are in places apart from each other. -/
theorem housed (copied : Copied t root b d p q branches merged) (opened : Pairs) (closed v w : Value) :
    Housed t root (places b d p q branches opened closed v w) := by
  have base_inner := copied.base
  obtain ⟨to_own,to_first,to_second,above⟩ := copied.entries
  obtain ⟨later,between,between'⟩ := copied.new
  have own_least := copied.closed.laid.least
  have first_least := copied.first.planted.least
  have region (id : Nat) (here : Around (places b d p q branches opened closed v w) id) : id ≤ b.plot.root ∨ root < id :=
    (copied.bounds here).elim (fun held => held.2.1) fun lower => .inr (by omega)
  refine ⟨copied.heading.body,?modified,⟨.refl _ t,by simp,?waits,fun _ _ _ _ => rfl,?apart⟩,fun here => ?above,fun place member here => ?outside⟩
  case modified =>
    simp only [places,List.mem_cons,List.not_mem_nil,or_false,forall_eq_or_imp,forall_eq]
    exact ⟨copied.modified b (by simp),copied.modified d (by simp),copied.modified p (by simp),copied.modified q (by simp)⟩
  case waits =>
    simp only [places,List.mem_cons,List.not_mem_nil,or_false,forall_eq_or_imp,forall_eq]
    exact ⟨copied.opened.waits _,copied.closed.waits _,copied.first.waits _,copied.second.waits _⟩
  case apart =>
    have before (id : Nat) (here : Unread b branches id) : id < d.plot.first :=
      (copied.occupied id (here.imp_right fun ⟨c,member,holds⟩ => ⟨c,member,.inr holds⟩)).2
    simp only [places,List.nil_append,List.pairwise_cons,List.mem_cons,List.not_mem_nil,or_false,forall_eq_or_imp,forall_eq,List.Pairwise.nil,
      and_true,false_imp_iff,implies_true]
    refine ⟨⟨fun id here there => ?_,fun id here there => ?_,fun id here there => ?_⟩,⟨fun id here there => ?_,fun id here there => ?_⟩,
      fun id here there => ?_⟩
    · have := before id here
      have := there.1
      omega
    · have := before id here
      have := there.1
      omega
    · have := before id here
      have := there.1
      omega
    all_goals
      have := here.2
      have := there.1
      omega
  case above => exact (region root here).elim (by omega) (by omega)
  case outside =>
    have := region _ here
    simp only [places,List.mem_cons,List.not_mem_nil,or_false] at member
    rcases member with rfl | rfl | rfl | rfl
    all_goals
      dsimp only at this
      omega

/-- Each of the four values is resolved to what is expected of it. -/
theorem yields (copied : Copied t root b d p q branches merged) (host : Host) (depth : Nat)
    (bare : ∀ c ∈ [b,d,p,q], Key.isBare c.key = true) {pairs finals : Pairs} {i j : Identity}
    (base_plain : ∀ c ∈ branches, Key.isBare c.key = true ∧ c.plot.value.isPlain settings = true)
    (base_keys : branches.map Branch.key = Pairs.keys opened) (base_distinct : (Pairs.keys opened).Nodup)
    (base_resolves : List.Forall₂ (fun c final => Resolves host settings replacement [b.key,c.key] c.plot.value final (depth + 1))
      branches (opened.map Prod.snd))
    (own_plain : ∀ p ∈ pairs, Key.isBare p.1 = true ∧ p.2.isPlain settings = true)
    (own_pairs : merged.map (fun c => (c.key,c.plot.value)) = pairs)
    (own_resolves : ∀ (s : Store) (level first x : Nat) (branches : List Branch) (v : Value),
      branches.map (fun c => (c.key,c.plot.value)) = pairs → Awaits settings replacement [d.key] level first x branches s →
      ∃ w t, Runs ((Calls.ofDepth host (depth + 2)).resolve x) s (.ok w) t ∧ Finish [d.key] (.mapping j finals) ⟨first,x,v⟩ s w t)
    (units_plain : p.plot.value.isPlain settings = true ∧ q.plot.value.isPlain settings = true)
    (first_resolves : Resolves host settings replacement [p.key] p.plot.value v (depth + 2))
    (second_resolves : Resolves host settings replacement [q.key] q.plot.value w (depth + 2)) :
    List.Forall₂ (fun place final => place.Yields host settings replacement final (depth + 2)
        (Around (places b d p q branches opened (.mapping j finals) v w)) t)
      (places b d p q branches opened (.mapping j finals) v w) [.mapping i opened,.mapping j finals,v,w] := by
  obtain ⟨to_own,to_first,to_second,above⟩ := copied.entries
  obtain ⟨later,between,between'⟩ := copied.new
  have own_old := copied.closed.laid.old
  have own_least := copied.closed.laid.least
  have first_old := copied.first.planted.old
  have first_least := copied.first.planted.least
  have second_old := copied.second.planted.old
  have second_least := copied.second.planted.least
  have housed := copied.housed opened (.mapping j finals) v w
  have apart (c : Branch) (member : c ∈ branches) : ¬ Around (places b d p q branches opened (.mapping j finals) v w) c.entry := fun here => by
    have before := (copied.occupied c.entry (.inr ⟨c,member,.inl rfl⟩)).2
    rcases copied.bounds here with ⟨same | held,_⟩ | lower
    · obtain ⟨_,_,_,_,_,_,body⟩ := copied.opened.gathered.modified c member
      rw [same,copied.opened.gathered.body] at body
      cases body
    · exact (copied.opened.gathered.inner held).2 c member rfl
    · omega
  exact .cons (housed.yields_opened copied.heading rfl host _ (fun _ => Iff.rfl) (by simp [places]) copied.opened apart (bare b (by simp))
      base_plain base_keys base_distinct base_resolves)
    (.cons (housed.yields_closed copied.heading rfl host (by simp [places]) copied.closed own_pairs (by omega) (bare d (by simp)) own_plain
      own_resolves)
    (.cons (housed.yields_ready copied.heading rfl host (by simp [places]) copied.first (by omega) units_plain.1 (bare p (by simp))
      first_resolves)
    (.cons (housed.yields_ready copied.heading rfl host (by simp [places]) copied.second (by omega) units_plain.2 (bare q (by simp))
      second_resolves) .nil)))

end Copied

/-! ## The root -/

/-- The store in which the entries of a mapping begin to be gone through, as part of the work on it. -/
def Store.gathering (s : Store) (root : NodeId) (entries : List NodeId) : Store :=
  (s.begun root).update root fun n => { n with body := .mapping entries true }

theorem node_gathering {entries : List Nat} (old : root < s.nodes.size) :
    (s.gathering root entries).node root = { s.node root with body := .mapping entries true, resolution := .active } := by
  rw [Store.gathering,Store.node_update_self (by simpa [Store.begun] using old),node_begun old]

theorem Advance.gathering {entries : List Nat} : Advance (· = root) (fun _ => False) s (s.gathering root entries) :=
  ((show Advance (· = root) (fun _ => False) s (s.begun root) from .begun rfl).trans
    (show Advance (· = root) (fun _ => False) (s.begun root) (s.gathering root entries) from .update rfl) fun _ _ here => here).mono
    (fun _ _ here => here) (by simp)

theorem Faithful.gathering {entries : List Nat} (body : (s.node root).body = .mapping entries false) : s.Faithful (s.gathering root entries) := by
  have begun : s.Faithful (s.begun root) :=
    (show s.Faithful (s.update root fun n => { n with resolution := .active }) from .update rfl).trans (.of_nodes rfl)
  refine begun.trans (.update ?_)
  rw [node_begun (old_of_mappingBody body)]
  exact (congrArg Body.built body).symm

/-- The entries of a root wait on when nothing but the root changes, and that stays in no unit. -/
theorem Prepared.frame (prepared : Prepared s root b d p q base own unit) (frame : s.Frame (· = root) t) (faithful : s.Faithful t)
    (old : root < s.nodes.size) (root_outside : (t.node root).unit = none) : Prepared t root b d p q base own unit := by
  obtain ⟨base_inner,to_own,own_inner,to_first,first_inner,to_second,second_inner,above⟩ := prepared.order
  obtain ⟨base_entry,own_entry,first_entry,second_entry,layers,first_unit,second_unit,order,outside⟩ := prepared
  have own_least := own_entry.ready.planted.least
  have first_least := first_entry.ready.planted.least
  have second_least := second_entry.ready.planted.least
  have waits {source : DeclarationSource} {c : Branch} (awaiting : Awaiting s root source c) (inner : c.plot.root < c.entry) (below : c.entry < root) :
      Awaiting t root source c :=
    awaiting.frame frame (Nat.ne_of_lt below) fun id holds => Nat.ne_of_lt (Nat.lt_of_le_of_lt holds.2 (Nat.lt_trans inner below))
  refine ⟨waits base_entry base_inner (by omega),waits own_entry own_inner (by omega),waits first_entry first_inner (by omega),
    waits second_entry second_inner above,layers.faithful faithful,first_unit,second_unit,order,fun id upper => ?_⟩
  rcases Nat.eq_or_lt_of_le upper with rfl | lower
  · exact root_outside
  · rw [frame.same id (Nat.lt_trans lower old) (Nat.ne_of_lt lower)]
    exact outside id upper

/-- A configuration's root as it was made: a base, a mapping that extends it and two entries that load a unit, in a session that can read
their keys and has the unit to give. -/
structure Copying (settings : Settings) (replacement : List Text → Option Value) (s : Store) (root : Nat) (b d p q : Branch)
    (base own : Pairs) (unit : Text) (content : Value) : Prop where
  prepared : Prepared s root b d p q base own unit
  blank : (s.node root).Blank
  top : (s.node root).parent = none
  bound : (s.node root).isBound = true
  body : (s.node root).body = .mapping [b.entry,d.entry,p.entry,q.entry] false
  known : s.session.root = root
  named : Named b d p q
  equipped : Equipped settings s.session
  informed : Informed settings replacement s
  serves : Serves s unit content

/-- Such a root is settled with its copies in their places. -/
theorem Copying.settle_run (copying : Copying settings replacement s root b d p q base own unit content)
    (unreplaced : ∀ key ∈ copyKeys, replacement [key] = none)
    (base_plain : b.plot.value.isPlain settings = true) (plain : content.isPlain settings = true)
    (valid : UnitName.isValid unit = true) (nonempty : unit.isEmpty = false) (literal : settings.isLiteral unit = true) (host : Host)
    (depth : Nat) :
    ∃ t first m p' q' branches merged τ, Runs ((Calls.ofDepth host (depth + 8)).settle root) (s.begun root) (.ok ()) t ∧
      Copied t root b ⟨d.key,d.entry,⟨first,m,d.plot.value⟩⟩ ⟨p.key,p.entry,p'⟩ ⟨q.key,q.entry,q'⟩ branches merged ∧
      (p'.value = content ∧ q'.value = content) ∧ Replaced replacement [b.key] base branches ∧
      merged.map (fun c => (c.key,c.plot.value)) = Pairs.overlay own base ∧ t.session.templates = [(unit,τ)] ∧
      t.node root = { s.node root with body := .mapping [b.entry,d.entry,p.entry,q.entry] true, resolution := .active } ∧
      Advance (fun _ => True) (fun used => ∃ p ∈ base, used = [b.key,p.1]) (s.serving [(unit,τ)]) t := by
  obtain ⟨prepared,blank,top,bound,body,known,named,equipped,informed,serves⟩ := copying
  have old := old_of_mappingBody body
  have here : (s.gathering root [b.entry,d.entry,p.entry,q.entry]).node root =
      { s.node root with body := .mapping [b.entry,d.entry,p.entry,q.entry] true, resolution := .active } := node_gathering old
  have entered : Advance (· = root) (fun _ => False) s (s.gathering root [b.entry,d.entry,p.entry,q.entry]) := .gathering
  obtain ⟨t,first,m,p',q',branches,merged,τ,settle,copied,values,replaced,pairs,served,advance⟩ :=
    (prepared.frame entered.toFrame (Faithful.gathering body) old (by rw [here]; exact prepared.outside root (Nat.le_refl _))).settleEntries_run
      ⟨by rw [here]; exact blank.live,by rw [here]; exact top,by rw [here]; exact bound,by rw [here]⟩
      named unreplaced (equipped.advance entered) known (informed.advance entered) base_plain (serves.advance entered (Faithful.gathering body)) plain valid nonempty literal
      host depth
  have above : q.entry < root := copied.entries.2.2.2
  refine ⟨t,first,m,p',q',branches,merged,τ,?_,copied,values,replaced,pairs,served.templates,?_,?_⟩
  · refine getNode_run.bind ?_
    rw [node_begun old,body]
    exact modifyNode_run.bind settle
  · rw [← here]
    refine advance.same root (show root < (s.gathering root _).nodes.size by simpa [Store.gathering,Store.begun] using old) fun within => ?_
    exact Nat.not_le.mpr above within.2
  · exact ((entered.serving [(unit,τ)]).mono (fun _ _ _ => trivial) (fun _ => Iff.rfl)).trans advance (fun _ _ _ => trivial) |>.mono
      (fun _ _ _ => trivial) (by simp)

end ConfTree
