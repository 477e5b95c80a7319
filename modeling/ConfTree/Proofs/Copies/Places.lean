import ConfTree.Proofs.Copies.Extension

/-!
The places of a settled root, resolved. In the value slot of an entry may stand a tree that waits, a mapping that is closed or one that
was opened; each is resolved to what its content becomes, whatever becomes of the places around it (`yields_ready`, `yields_closed`,
`yields_opened`).
-/
namespace ConfTree

open StoreM

variable {settings : Settings} {s s₁ t : Store} {replacement : List Text → Option Value} {root : Nat} {entries : List Nat}

/-! ## Waiting -/

theorem Closed.waits {b : Branch} {branches : List Branch} (closed : Closed s b.entry b.plot.first b.plot.root branches)
    (used : List Text → Prop) : Site.Waits s ⟨b,b.plot.Holds,used⟩ where
  root := ⟨closed.laid.least,Nat.le_refl _⟩
  old _ holds := Nat.lt_of_le_of_lt holds.2 closed.laid.old
  idle := closed.laid.idle
  live := closed.blank.live
  shown := closed.blank.shown
  parent := closed.parent

/-- The nodes of an opened mapping that change when its values are resolved. -/
def Unread (b : Branch) (branches : List Branch) (id : Nat) : Prop := id = b.plot.root ∨ ∃ c ∈ branches, c.plot.Holds id

theorem Opened.waits {b : Branch} {branches : List Branch} (opened : Opened s b branches) (used : List Text → Prop) :
    Site.Waits s ⟨b,Unread b branches,used⟩ where
  root := .inl rfl
  old id here := by
    rcases here with rfl | ⟨c,member,holds⟩
    · exact old_of_mappingBody opened.gathered.body
    · exact Nat.lt_of_le_of_lt holds.2 (opened.gathered.ready c member).planted.old
  idle id here := by
    rcases here with rfl | ⟨c,member,holds⟩
    · rw [Node.Over,opened.gathered.body,opened.blank.pending]
      rintro ⟨_,impossible⟩
      cases impossible
    · exact (opened.gathered.ready c member).idle id holds
  live := opened.blank.live
  shown := opened.blank.shown
  parent := opened.parent

theorem Gathered.begun {x : Nat} {branches : List Branch} (gathered : Gathered s x branches) (old : x < s.nodes.size) :
    Gathered (s.begun x) x branches := by
  have begun : Advance (· = x) (fun _ => False) s (s.begun x) := .begun rfl
  refine gathered.frame begun.grows (by rw [node_begun old]) (fun b member => ?_) fun b member id holds => ?_
  · refine begun.same _ (gathered.modified b member).old fun same => ?_
    obtain ⟨_,_,_,_,_,_,body⟩ := gathered.modified b member
    have same : b.entry = x := same
    rw [same,gathered.body] at body
    cases body
  · exact begun.same id (Nat.lt_of_le_of_lt holds.2 (gathered.ready b member).planted.old) fun same => gathered.above b member (same ▸ holds)

/-- What is left of a place's surroundings when nothing changes in the place. -/
theorem Site.beside {around : Nat → Prop} {p : Site} (frame : s₁.Frame around s) (same : ∀ id, p.inside id → s.node id = s₁.node id) :
    s₁.Frame (fun id => around id ∧ ¬ p.inside id) s where
  grows := frame.grows
  same id old apart := by
    by_cases within : p.inside id
    · exact same id within
    · exact frame.same id old fun here => apart ⟨here,within⟩

/-! ## Resolving -/

section

variable {all : List Site} (housed : Housed s₁ root all) (heading : Heading s₁ root entries) (body : entries = all.map fun p => p.entry)
include housed heading body

/-- The value in a place stays where it is, whatever changes in the places. -/
theorem Housed.anchored {p : Site} (member : p ∈ all) (frame : s₁.Frame (Around all) s) (parent : (s.node p.plot.root).parent = some p.entry)
    {inside : NodeId → Prop} (covers : ∀ id, inside id → Around all id) : s.Anchored inside p.plot.root [p.key] 2 := by
  have at_root := frame.same root heading.old housed.above
  have at_entry := frame.same p.entry (housed.modified p member).old (housed.outside p member)
  obtain ⟨live,above,head,declared,evaluated,key,entry⟩ := (housed.modified p member).same at_entry
  have key : head.key.name = p.key := key
  rw [← key]
  refine (heading.same at_root).anchored (body ▸ List.mem_map_of_mem member) live above entry parent
    ⟨fun within => housed.above (covers _ within),fun within => housed.outside p member (covers _ within)⟩

/-- A tree that waits in a place is resolved to what its content becomes. -/
theorem Housed.yields_ready {b : Branch} {final : Value} {depth : Nat} (host : Host)
    (member : ⟨b,b.plot.Holds,Beneath [b.key] final⟩ ∈ all) (ready : Ready s₁ b.entry b.plot)
    (room : 2 + (b.plot.root + 1 - b.plot.first) ≤ s₁.nodes.size) (plain : b.plot.value.isPlain settings = true)
    (bare : Key.isBare b.key = true) (resolves : Resolves host settings replacement [b.key] b.plot.value final depth) :
    Site.Yields host settings replacement final depth (Around all) s₁ ⟨b,b.plot.Holds,Beneath [b.key] final⟩ :=
  ready.yields host resolves room plain (by simpa [Dotless] using Key.bare_dotless bare) fun s frame parent =>
    housed.anchored heading body member frame parent fun id holds => ⟨_,member,holds⟩

omit heading body in
/-- No node of a place was worked on. -/
theorem Housed.idle {id : Nat} (here : Around all id) : ¬ (s₁.node id).Over := by
  obtain ⟨p,member,within⟩ := here
  exact (housed.parts.waits p member).idle id within

/-- A closed mapping in a place is resolved to what its pairs become. -/
theorem Housed.yields_closed {b : Branch} {branches : List Branch} {pairs finals : Pairs} {i : Identity} {depth : Nat} (host : Host)
    (member : ⟨b,b.plot.Holds,Beneath [b.key] (.mapping i finals)⟩ ∈ all)
    (closed : Closed s₁ b.entry b.plot.first b.plot.root branches) (content : branches.map (fun c => (c.key,c.plot.value)) = pairs)
    (room : 2 + (b.plot.root + 1 - b.plot.first) ≤ s₁.nodes.size) (bare : Key.isBare b.key = true)
    (plain : ∀ p ∈ pairs, Key.isBare p.1 = true ∧ p.2.isPlain settings = true)
    (resolves : ∀ (s : Store) (level first x : Nat) (branches : List Branch) (v : Value),
      branches.map (fun c => (c.key,c.plot.value)) = pairs → Awaits settings replacement [b.key] level first x branches s →
      ∃ w t, Runs ((Calls.ofDepth host depth).resolve x) s (.ok w) t ∧ Finish [b.key] (.mapping i finals) ⟨first,x,v⟩ s w t) :
    Site.Yields host settings replacement (.mapping i finals) depth (Around all) s₁ ⟨b,b.plot.Holds,Beneath [b.key] (.mapping i finals)⟩ := by
  intro s frame same informed
  have kept := closed.frame (Site.beside frame same) (fun id here => housed.idle here.1) fun id holds here => here.2 holds
  obtain ⟨w,t,run,finish⟩ := resolves s 2 b.plot.first b.plot.root branches b.plot.value content {
    laid := kept.laid
    blank := kept.blank
    anchored := housed.anchored heading body member frame kept.parent fun id holds => ⟨_,member,holds⟩
    room := Nat.le_trans room frame.grows
    plain := fun c among => plain _ (content ▸ List.mem_map_of_mem among)
    dotless := by simpa [Dotless] using Key.bare_dotless bare
    informed := informed }
  exact ⟨w,t,run,finish.value,finish.finished,finish.parent,finish.advance⟩

/-- An opened mapping in a place is resolved to what the values of its entries become. -/
theorem Housed.yields_opened {b : Branch} {branches : List Branch} {finals : Pairs} {i : Identity} {depth : Nat} (host : Host)
    (used : List Text → Prop) (use : ∀ place, used place ↔ ∃ p ∈ branches.zip (finals.map Prod.snd), Beneath [b.key,p.1.key] p.2 place)
    (member : ⟨b,Unread b branches,used⟩ ∈ all) (opened : Opened s₁ b branches) (apart : ∀ c ∈ branches, ¬ Around all c.entry)
    (bare : Key.isBare b.key = true) (plain : ∀ c ∈ branches, Key.isBare c.key = true ∧ c.plot.value.isPlain settings = true)
    (keys : branches.map Branch.key = Pairs.keys finals) (distinct : (Pairs.keys finals).Nodup)
    (resolves : List.Forall₂ (fun c final => Resolves host settings replacement [b.key,c.key] c.plot.value final (depth + 1))
      branches (finals.map Prod.snd)) :
    Site.Yields host settings replacement (.mapping i finals) (depth + 2) (Around all) s₁ ⟨b,Unread b branches,used⟩ := by
  intro s frame same informed
  have old : b.plot.root < s₁.nodes.size := (opened.waits used).old _ (.inl rfl)
  have grows := frame.grows
  have kept : Opened s b branches := opened.frame (Site.beside frame same) old fun id here within => by
    rcases here with rfl | ⟨c,among,rfl | holds⟩
    · exact within.2 (.inl rfl)
    · exact apart c among within.1
    · exact within.2 (.inr ⟨c,among,holds⟩)
  have x_old : b.plot.root < s.nodes.size := by omega
  have after := node_begun x_old
  have begun : Advance (· = b.plot.root) (fun _ => False) s (s.begun b.plot.root) := .begun rfl
  have anchored : s.Anchored (Unread b branches) b.plot.root [b.key] 2 :=
    housed.anchored heading body member frame kept.parent fun id here => ⟨_,member,here⟩
  have anchored' : (s.begun b.plot.root).Anchored (fun id => ∃ c ∈ branches, c.plot.Holds id) b.plot.root [b.key] 2 :=
    fun u further above bound live => anchored u
      ((begun.toFrame.mono fun _ _ here => .inl here).followed further fun _ _ here => .inr here) (by rw [above,after]) (by rw [bound,after]) live
  have gathered := kept.gathered.begun x_old
  have settle : Runs ((Calls.ofDepth host (depth + 1)).settle b.plot.root) (s.begun b.plot.root) (.ok ()) (s.begun b.plot.root) := by
    refine getNode_run.bind ?_
    rw [gathered.body]
    exact Runs.ok _ _
  have standing := gathered.standing (by rw [after]; exact kept.blank.live) anchored'
    (fun c among => Nat.le_trans (kept.room c among) begun.grows) (by simpa [Dotless] using Key.bare_dotless bare) plain
  have bound := (anchored s (.refl _ _) rfl rfl kept.blank.live).requireSession_run (by
    have root_old := heading.old
    have root_apart : root ≠ b.plot.root := fun same => housed.above ⟨_,member,.inl same⟩
    omega)
  obtain ⟨w,u,run,value,finished,parent,advance⟩ := gathered.resolve_run (a := i) host depth x_old begun.grows kept.blank bound settle
    ⟨_,after⟩ standing (informed.advance begun) (fun c among => (plain c among).1) keys distinct resolves
  refine ⟨w,u,run,value,finished,parent,?_⟩
  refine ((begun.mono (fun _ _ here => .inl here) fun _ => Iff.rfl).trans advance fun _ _ here => here).mono (fun _ _ here => here)
    fun place => ?_
  rw [false_or]
  exact (use place).symm

end

end ConfTree