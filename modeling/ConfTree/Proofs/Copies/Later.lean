import ConfTree.Proofs.Copies.Exact
import ConfTree.Proofs.Readings

/-!
Copies at any time. Whatever is done after a tree was built, one deed after another, large or small and however each ends
(`Later`), its nodes stay what they were built as (`Later.faithful`), and so they are copied as they were built (`build_copies`).
-/
namespace ConfTree

open StoreM

variable {s t u : Store}

/-- A body with all that may be written in it, and with what it was declared with. -/
def Body.amended : Body → Body → Body
  | .scalar raw _, .scalar _ override => .scalar raw override
  | .sequence _ declared _, .sequence items _ isSettled => .sequence items declared isSettled
  | .mapping entries _, .mapping _ isSettled => .mapping entries isSettled
  | .entry head _ declared .., .entry _ slot _ renamed modification evaluated => .entry head slot declared renamed modification evaluated
  | body, _ => body

theorem Body.built_amended (old new : Body) : (old.amended new).built = old.built := by
  cases old <;> cases new <;> rfl

/-- A piece of work on the trees, large or small. -/
inductive Deed where
  /-- what a program asks of its configuration -/
  | read (reading : Reading)
  /-- binds a name for expressions -/
  | register (name : Text) (v : Value) (overwrite : Bool)
  /-- computes the value of a node -/
  | resolve (id : NodeId)
  /-- applies the overrides and modifiers below a node -/
  | settle (id : NodeId)
  /-- selects a child of a node -/
  | select (id : NodeId) (selector : Selector)
  /-- evaluates the declaration of an entry -/
  | declare (id : NodeId)
  /-- applies a modifier to a node -/
  | modify (m : ModifierObject) (id : NodeId)
  /-- calls an object -/
  | call (o : Object) (args : List Value) (keyword : Pairs)
  /-- indexes an object -/
  | index (o : Object) (key : Value)
  /-- evaluates a source -/
  | evaluate (source : Text) (locals : Pairs)
  /-- builds a tree -/
  | build (raw : Value) (path : Text)
  /-- makes a node over others -/
  | gather (body : Body) (children : List NodeId)
  /-- copies a node -/
  | copy (id : NodeId)
  /-- makes an instance of a unit -/
  | instantiate (unit : Text)
  /-- puts a node in the place of another one -/
  | replace (id replacement : NodeId)
  /-- puts a node in the place of a child -/
  | replaceChild (container child replacement : NodeId)
  /-- applies the override of a node -/
  | override (id : NodeId)
  /-- makes a tree that of the session -/
  | bind (root : NodeId)
  /-- writes anything at a node but what it was declared with, as each larger deed does step by step -/
  | amend (id : NodeId) (n : Node)
  /-- changes the session -/
  | share (f : Session → Session)

/-- Does the work, to a depth of references, whatever comes of it. -/
def Deed.perform (host : Host) (depth : Nat) : Deed → StoreM Unit
  | read reading => reading.perform (Calls.ofDepth host depth)
  | register name v overwrite => Configuration.register name v overwrite
  | resolve id => discard ((Calls.ofDepth host depth).resolve id)
  | settle id => (Calls.ofDepth host depth).settle id
  | select id selector => discard ((Calls.ofDepth host depth).child id selector)
  | declare id => discard ((Calls.ofDepth host depth).declaration id)
  | modify m id => discard ((Calls.ofDepth host depth).apply m id)
  | call o args keyword => discard ((Calls.ofDepth host depth).invoke o args keyword)
  | index o key => discard (Invoke.subscript host (Calls.ofDepth host depth) o key)
  | evaluate source locals => discard (Expression.evaluate host (Calls.ofDepth host depth) source locals)
  | build raw path => discard (StoreM.build raw path)
  | gather body children => discard (newParent body children)
  | copy id => discard (StoreM.copy id)
  | instantiate unit => discard (StoreM.instantiate unit)
  | replace id replacement => discard (replaceWith id replacement)
  | replaceChild container child replacement => StoreM.replaceChild container child replacement
  | override id => discard (applyOverride id)
  | bind root => Configuration.bindRoot root
  | amend id n => modifyNode id fun old => { n with body := old.body.amended n.body }
  | share f => modifySession f

/-- The second store is one that deeds lead to from the first, one after another, those that throw among them. Reports, identities
and counts of calls may change at any time. -/
inductive Later (host : Host) : Store → Store → Prop
  | now (s : Store) : Later host s s
  | deed {s t u : Store} (depth : Nat) (deed : Deed) {r : Except Thrown Unit} (run : Runs (deed.perform host depth) s r t)
      (rest : Later host t u) : Later host s u
  | aside {s t u : Store} (alike : s.Alike t) (rest : Later host t u) : Later host s u

theorem Deed.faithful (host : Host) (depth : Nat) (deed : Deed) : Faithful (deed.perform host depth) := by
  have sound := Faithful.ofDepth host depth
  have edited := Faithful.edited
  cases deed with
  | read reading => exact Discipline.reading_keeps sound.judged (Faithful.modifySession _) reading
  | register => exact Quiet.getSession.keeps.bind fun _ => (Quiet.orThrow _).keeps.bind fun _ => Faithful.modifySession _
  | resolve id => exact (sound.resolve id).map
  | settle id => exact sound.settle id
  | select id selector => exact (sound.child id selector).map
  | declare id => exact (sound.declaration id).map
  | modify m id => exact (sound.apply m id).map
  | call o args keyword => exact (sound.invoke o args keyword).map
  | index o key => exact Discipline.Keeps.map (Judgement.subscript_holds sound.judged.toOnTree host o key)
  | evaluate source locals => exact Discipline.Keeps.map (Judgement.evaluate_holds sound.judged host source locals)
  | build => exact (edited.build fun c _ => c.heads_any).map
  | gather => exact (edited.newParent (Faithful.newNode _) _).map
  | copy id => exact (edited.copy id).map
  | instantiate unit => exact (edited.instantiate (fun _ _ => Faithful.modifySession _) unit).map
  | replace => exact (edited.replaceWith _ _).map
  | replaceChild => exact edited.replaceChild _ _ _
  | override id => exact (Faithful.bearing.regular.applyOverride id).map
  | bind => exact Discipline.Keeps.bind (edited.touched fun _ => ⟨rfl,rfl,rfl⟩) fun _ => Faithful.modifySession _
  | amend id n =>
    have same (old : Node) : ({ n with body := old.body.amended n.body } : Node).body.built = old.body.built := Body.built_amended _ _
    exact Faithful.modifyNode same
  | share => exact Faithful.modifySession _

/-- Whatever is done, all nodes stay what they were built as. -/
theorem Later.faithful {host : Host} (later : Later host s t) : s.Faithful t := by
  induction later with
  | now => exact .of_nodes rfl
  | deed depth deed run _ ih => exact (deed.faithful host depth _ _ _ trivial run).2.trans ih
  | aside alike _ ih => exact (Store.Faithful.of_nodes alike.nodes).trans ih

/-! ## Building and copying -/

/-- The top of a tree is bound when it is marked as bound. -/
theorem Store.isBound_top {id : Nat} (live : (s.node id).replacedBy = none) (top : (s.node id).parent = none) :
    s.isBound id = (s.node id).isBound := by
  have above : s.above? id = none := by
    rw [Store.above?,current_of_live live,top]
    rfl
  rw [Store.isBound,Store.top?,Store.upTo,if_neg Bool.false_ne_true,above,current_of_live live]
  rfl

/-- Building is exact, and copies are faithful in every state. A value can be built if and only if it is content. Whatever is done
after that, and however it ends, each node of the tree that was built can be copied at any time. The copy is a tree of its own, of
new nodes to which nothing was done, with the nodes there were left as they were; and it has the shape that the node in the same
place has wherever the value is built anew. -/
theorem build_copies (raw : Value) (path : Text) (s : Store) :
    ((∃ root t, Runs (build raw path) s (.ok root) t) ↔ raw.IsContent) ∧
    ∀ (host : Host) (root n : Nat) (t u : Store) (place : List Nat), Runs (build raw path) s (.ok root) t → t.at? place root = some n →
      Later host t u → ∃ m v, Runs (copy n) u (.ok m) v ∧ v.isBound m = false ∧
        (∀ place' id, v.at? place' m = some id → u.nodes.size ≤ id ∧ v.node id = .under (v.node id).parent (v.node id).body) ∧
        (∀ id : Nat, id < u.nodes.size → v.node id = u.node id) ∧
        ∀ path' w root' x, Runs (build raw path') w (.ok root') x → ∃ n', x.at? place root' = some n' ∧ v.Isomorphic x m n' := by
  refine ⟨build_ok_iff,fun host root n t u place run found later => ?_⟩
  obtain ⟨c,read,fresh⟩ := build_fresh run
  obtain ⟨_,_,seed,_,part⟩ := fresh.within found
  obtain ⟨m,v,copied,grown,copy⟩ := part.copied later.faithful
  refine ⟨m,v,copied,?_,fun place' id inside => ?_,fun id old => grown.node old,fun path' w root' x anew => ?_⟩
  · obtain ⟨_,node,_⟩ := copy
    rw [Store.isBound_top (by rw [node]; rfl) (by rw [node]; rfl),node]
    rfl
  · obtain ⟨_,_,_,least,here⟩ := copy.within inside
    have new := here.bounds.1
    obtain ⟨_,node,_⟩ := here
    exact ⟨by omega,by rw [node]; rfl⟩
  · obtain ⟨c',read',fresh'⟩ := build_fresh anew
    obtain rfl : c = c' := Except.ok.inj ((read path).symm.trans (read' path))
    obtain ⟨n',_,_,_,_,_,there,left,right⟩ := fresh.counterpart fresh' found
    -- Copying is deterministic, so this is the copy that was made.
    obtain ⟨_,_,copied',_,copy'⟩ := left.copied later.faithful
    obtain ⟨same,rfl⟩ := Runs.unique copied' copied
    cases same
    exact ⟨n',there,copy'.isomorphic right⟩

/-- Deeds that were done one after another lead to the store that the last one leaves. -/
theorem Later.of_deeds {host : Host} {depth : Nat} {deeds : List Deed}
    (done : deeds.foldlM (fun s deed => (deed.perform host depth s).map Prod.snd) s = some u) : Later host s u := by
  induction deeds generalizing s with
  | nil =>
    obtain rfl : s = u := by simpa using done
    exact .now s
  | cons deed rest ih =>
    rw [List.foldlM_cons] at done
    obtain ⟨t,first,done⟩ := Option.bind_eq_some_iff.mp done
    obtain ⟨⟨r,_⟩,run,rfl⟩ := Option.map_eq_some_iff.mp first
    exact .deed depth deed run (ih done)

/-- A list in a tree that was bound, an item of which was overridden, and whose resolution failed in the end: the copy has the item that
was declared, and the other one as it was. -/
theorem build_copies_overridden : ∃ t u m v,
    Runs (build (.mapping 1 [("a::hidden",.list 2 [.number (.ofNat 1),.mapping 3 [("b:int",.text "x")]]),("c",.text "$: nope")]) .empty)
      (Store.empty 4) (.ok 8) t ∧
    Later (Host.bare [] "") t u ∧ (u.node 0).replacedBy = some 10 ∧ u.faults.size = 1 ∧
    Runs (copy 4) u (.ok m) v ∧ v.isBound m = false ∧
    (∀ place id, v.at? place m = some id → u.nodes.size ≤ id ∧ v.node id = .under (v.node id).parent (v.node id).body) ∧
    v.Isomorphic t m 4 := by
  have done : (build (.mapping 1 [("a::hidden",.list 2 [.number (.ofNat 1),.mapping 3 [("b:int",.text "x")]]),("c",.text "$: nope")]) .empty
      (Store.empty 4)).any (fun p => p.1.toOption == some 8 && p.2.at? [0,0] 8 == some 4 &&
        (([.bind 8,.share fun session => { session with context := Registry.standard 0, overrides := [⟨"a.0",.list 4 [.bool true],0⟩] },
          .select 8 (.key "a"),.settle 4,.read .resolve] : List Deed).foldlM
            (fun s (deed : Deed) => (deed.perform (Host.bare [] "") 12 s).map Prod.snd) p.2).any fun u =>
          (u.node 0).replacedBy == some 10 && u.faults.size == 1) = true := by
    decide +kernel
  obtain ⟨⟨r,t⟩,run,accepted⟩ := (Option.any_eq_true _ _).mp done
  obtain ⟨built,later⟩ := Bool.and_eq_true_iff.mp accepted
  obtain ⟨root,found⟩ := Bool.and_eq_true_iff.mp built
  obtain ⟨u,later,changed⟩ := (Option.any_eq_true _ _).mp later
  obtain ⟨replaced,failed⟩ := Bool.and_eq_true_iff.mp changed
  cases r with
  | error e => cases root
  | ok root' =>
    obtain rfl : root' = 8 := by simpa [Except.toOption] using root
    obtain ⟨m,v,copied,unbound,new,_,shapes⟩ :=
      (build_copies _ _ _).2 (Host.bare [] "") 8 4 t u [0,0] run (beq_iff_eq.mp found) (.of_deeds later)
    obtain ⟨n',there,shape⟩ := shapes _ _ _ _ run
    cases (beq_iff_eq.mp found).symm.trans there
    exact ⟨t,u,m,v,run,.of_deeds later,beq_iff_eq.mp replaced,beq_iff_eq.mp failed,copied,unbound,new,shape⟩

end ConfTree
