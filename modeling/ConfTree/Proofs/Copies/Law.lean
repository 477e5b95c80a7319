import ConfTree.Proofs.Copies.Independence
import ConfTree.Proofs.Overrides.Law

/-!
The law of copies: a configuration of a base, a mapping that extends it and two instances of one unit is resolved to the base, the
mapping laid over the base and the unit twice, each edited by just the overrides below its own key (`resolve_copies`).
-/
namespace ConfTree

open StoreM

variable {settings : Settings} {s t : Store} {overrides ordered : List Override} {base own : Pairs} {content : Value}

/-! ## Reading -/

/-- A key is read as one with a name and a source when these come out. -/
theorem Key.parse_of {raw name : Text} {source : DeclarationSource}
    (read : (Key.parse raw).toOption.map (fun key => (key.name,key.source)) = some (name,source)) : Key.parse raw = .ok ⟨name,source⟩ := by
  cases parsed : Key.parse raw with
  | error issue =>
    rw [parsed] at read
    cases read
  | ok key =>
    rw [parsed] at read
    obtain ⟨rfl,rfl⟩ := Prod.mk.inj (Option.some.inj read)
    rfl

/-- A base, a mapping that extends it and two entries that load a unit, as they are written. -/
def writtenCopies (i j : Identity) (base own : Pairs) : Pairs :=
  [("base",.mapping i base),("d::extends(\"base\")",.mapping j own),("p::load",.text "u"),("q::load",.text "u")]

/-- The keys of these. -/
def readKeys : List Key := [⟨"base",.none⟩,⟨"d",⟨none,some extendingSource⟩⟩,⟨"p",⟨none,some loadingSource⟩⟩,⟨"q",⟨none,some loadingSource⟩⟩]

theorem writtenCopies_keys (i j : Identity) : List.Forall₂ (fun p key => Key.parse p.1 = .ok key) (writtenCopies i j base own) readKeys :=
  .cons (@Key.parse_of "base" _ _ (by decide +kernel)) (.cons (@Key.parse_of "d::extends(\"base\")" _ _ (by decide +kernel))
    (.cons (@Key.parse_of "p::load" _ _ (by decide +kernel)) (.cons (@Key.parse_of "q::load" _ _ (by decide +kernel)) .nil)))

/-! ## Building -/

/-- The values of a mapping that was planted were built from the content of its entries. -/
theorem Sown.builtFrom {first x : Nat} {cs : List (EntryHead × Content)} {branches : List Branch}
    (sown : Sown s first x (cs.map Prod.fst) branches) (built : s.BuiltFrom x (.mapping cs)) :
    List.Forall₂ (fun b c => s.BuiltFrom b.plot.root c.2) branches cs := by
  cases built with
  | @mapping _ entries values _ old body sizes sizes' before heads parts =>
    rw [sown.body] at body
    obtain rfl : branches.map Branch.entry = entries := (Body.mapping.inj body).1
    have count : branches.length = cs.length := by simpa using sizes
    refine List.forall₂_iff_get.mpr ⟨count,fun i inside inside' => ?_⟩
    have value : i < values.length := by omega
    have part : cs[i]? = some (cs[i].1,cs[i].2) := List.getElem?_eq_getElem inside'
    have entry := (heads i branches[i].entry values[i] _ _ (by simp [inside]) (List.getElem?_eq_getElem value) part).2
    have here := (List.forall₂_iff_get.mp sown.entries).2 i (by simpa using inside') inside
    simp only [List.get_eq_getElem] at here ⊢
    rw [here.2.2.2] at entry
    obtain ⟨_,same,_⟩ := Body.entry.inj entry
    rw [same]
    exact parts i values[i] _ _ (List.getElem?_eq_getElem value) part

/-- What a plain mapping is read as plants its pairs. -/
theorem spells_of_ofValue {i : Identity} {pairs : Pairs} {path : Text} {c : Content} (plain : (Value.mapping i pairs).isPlain settings = true)
    (read : Content.ofValue path (.mapping i pairs) = .ok c) : ∃ cs, c = .mapping cs ∧ Spells (· = none) cs pairs := by
  obtain ⟨distinct,each⟩ := Value.isPlain_mapping.mp plain
  obtain ⟨cs,again,spells⟩ := ofPairs_bare (fun p member => (each p member).1) distinct
    (fun p member => buildable_plain (each p member).2) path
  rw [Content.ofValue,again] at read
  exact ⟨cs,(Except.ok.inj read).symm,spells⟩

/-- An entry that was planted with the head of a key and inherits nothing waits. -/
theorem Awaiting.of_planted {root : Nat} {b : Branch} {head : EntryHead} {key : Key} (parsed : Except.ok (ε := ConstructionIssue) key = .ok head.key)
    (alone : head.inherited = none) (entry : head.key.name = b.key ∧ (t.node b.entry).Blank ∧ (t.node b.entry).parent = some root ∧
      (t.node b.entry).body = .entry head b.plot.root b.plot.root none .pending none) (ready : Ready t b.entry b.plot)
    (inner : b.plot.root < b.entry) : b.key = key.name ∧ Awaiting t root key.source b := by
  obtain ⟨read,inherited⟩ := head
  obtain rfl : key = read := Except.ok.inj parsed
  obtain rfl : inherited = none := alone
  obtain ⟨named,blank,parent,body⟩ := entry
  have named : key.name = b.key := named
  refine ⟨named.symm,blank,parent,?_,ready,fun within => Nat.not_le.mpr inner within.2⟩
  rw [body,← named]

/-- The entries of a root that was built from what was written wait. -/
theorem Sown.prepared {first root : Nat} {cs : List (EntryHead × Content)} {branches : List Branch} {i j : Identity}
    (sown : Sown t first root (cs.map Prod.fst) branches) (built : t.BuiltFrom root (.mapping cs))
    (values : branches.map (fun b => b.plot.value) = (writtenCopies i j base own).map Prod.snd)
    (written : List.Forall₂ (fun c p => Key.parse p.1 = .ok c.1.key ∧ c.1.inherited = none ∧
      (∃ path, Content.ofValue path p.2 = .ok c.2) ∧ Plants c.2 p.2) cs (writtenCopies i j base own))
    (idle : ∀ id : Nat, first ≤ id → ¬ (t.node id).Over) (outside : ∀ id, (t.node id).unit = none)
    (base_plain : (Value.mapping i base).isPlain settings = true) (own_plain : (Value.mapping j own).isPlain settings = true) :
    ∃ b d p q, (t.node root).body = .mapping [b.entry,d.entry,p.entry,q.entry] false ∧ Named b d p q ∧
      Prepared t root b d p q base own "u" := by
  have four : branches.length = 4 := by simpa [writtenCopies] using congrArg List.length values
  obtain ⟨b,d,p,q,rfl⟩ := List.length_eq_four.mp four
  have four' : cs.length = 4 := by simpa [writtenCopies] using written.length_eq
  obtain ⟨c,c₁,c₂,c₃,rfl⟩ := List.length_eq_four.mp four'
  have keys : List.Forall₂ (fun p key => Key.parse p.1 = .ok key) (writtenCopies i j base own) readKeys := writtenCopies_keys i j
  have parts := sown.builtFrom built
  have entries := sown.entries
  have within := sown.within
  have apart := sown.apart
  have parents := sown.parents
  have planted := sown.planted
  simp only [writtenCopies,readKeys,List.map_cons,List.map_nil,List.forall₂_cons,List.cons.injEq,List.mem_cons,List.not_mem_nil,or_false,
    forall_eq_or_imp,forall_eq,List.pairwise_cons] at values keys written parts entries within apart parents planted
  obtain ⟨base_value,own_value,first_value,second_value,_⟩ := values
  obtain ⟨base_key,own_key,first_key,second_key,_⟩ := keys
  obtain ⟨⟨base_parsed,base_alone,⟨_,base_read⟩,_⟩,⟨own_parsed,own_alone,⟨_,own_read⟩,_⟩,⟨first_parsed,first_alone,_⟩,
    ⟨second_parsed,second_alone,_⟩,_⟩ := written
  obtain ⟨base_built,own_built,_⟩ := parts
  obtain ⟨base_entry,own_entry,first_entry,second_entry,_⟩ := entries
  obtain ⟨⟨base_first,base_inner,_⟩,⟨own_first,own_inner,_⟩,⟨first_first,first_inner,_⟩,second_first,second_inner,above⟩ := within
  obtain ⟨⟨to_own,_⟩,⟨to_first,_⟩,to_second,_⟩ := apart
  obtain ⟨base_parent,own_parent,first_parent,second_parent⟩ := parents
  obtain ⟨base_planted,own_planted,first_planted,second_planted⟩ := planted
  have ready {c : Branch} (lower : first ≤ c.plot.first) (planted : Planted t c.plot) (parent : (t.node c.plot.root).parent = some c.entry) :
      Ready t c.entry c.plot := ⟨planted,fun id holds => idle id (Nat.le_trans lower holds.1),parent⟩
  obtain ⟨base_named,base_awaits⟩ := Awaiting.of_planted (base_key.symm.trans base_parsed) base_alone base_entry
    (ready base_first base_planted base_parent) base_inner
  obtain ⟨own_named,own_awaits⟩ := Awaiting.of_planted (own_key.symm.trans own_parsed) own_alone own_entry
    (ready own_first own_planted own_parent) own_inner
  obtain ⟨first_named,first_awaits⟩ := Awaiting.of_planted (first_key.symm.trans first_parsed) first_alone first_entry
    (ready first_first first_planted first_parent) first_inner
  obtain ⟨second_named,second_awaits⟩ := Awaiting.of_planted (second_key.symm.trans second_parsed) second_alone second_entry
    (ready second_first second_planted second_parent) second_inner
  obtain ⟨base_cs,base_content,base_spells⟩ := spells_of_ofValue base_plain base_read
  obtain ⟨own_cs,own_content,own_spells⟩ := spells_of_ofValue own_plain own_read
  exact ⟨b,d,p,q,sown.body,⟨base_named,own_named,first_named,second_named⟩,base_awaits,own_awaits,first_awaits,second_awaits,
    ⟨⟨i,base_value⟩,⟨j,own_value⟩,⟨base_cs,base_content ▸ base_built,base_spells⟩,⟨own_cs,own_content ▸ own_built,own_spells⟩⟩,
    first_value,second_value,⟨base_inner,to_own,own_inner,to_first,first_inner,to_second,second_inner,above⟩,fun id _ => outside id⟩

end ConfTree
