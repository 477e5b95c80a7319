import ConfTree.Proofs.Copies.Fresh

/-!
What can be built. A tree is built from a native value whose keys can be read, no two of a mapping declaring one name
(`Value.IsContent`), and from nothing else (`build_ok_iff`); what is built is the same wherever the value is said to stand
(`build_fresh`).
-/
namespace ConfTree

open StoreM

variable {s t : Store} {path : Text} {v : Value} {pairs rest : Pairs} {keys : List Key}

/-- A native value that a tree can be built from: each key can be read, and no two keys of a mapping declare one name. -/
inductive Value.IsContent : Value → Prop
  | scalar {v : Value} (native : v.isNativeScalar = true) : IsContent v
  | list {id : Identity} {items : List Value} (each : ∀ v ∈ items, IsContent v) : IsContent (.list id items)
  | mapping {id : Identity} {pairs : Pairs} {keys : List Key} (parsed : List.Forall₂ (fun p key => Key.parse p.1 = .ok key) pairs keys)
      (distinct : (keys.map Key.name).Nodup) (each : ∀ p ∈ pairs, IsContent p.2) : IsContent (.mapping id pairs)

namespace Content

/-- A pair is read with those after it if its key can be read, to a name that no key before it declares. -/
theorem ofPairs_cons {seen : List (Text × Text)} {raw : Text} {entries : List (EntryHead × Content)} :
    ofPairs path seen ((raw,v) :: rest) = .ok entries ↔ ∃ key c cs, Key.parse raw = .ok key ∧ seen.lookup key.name = none ∧
      ofValue (entryPath path key.name) v = .ok c ∧ ofPairs path ((key.name,raw) :: seen) rest = .ok cs ∧ entries = (⟨key,none⟩,c) :: cs := by
  constructor
  · intro accepted
    rw [ofPairs,readKey] at accepted
    cases parsed : Key.parse raw with
    | error issue => simp [parsed,bind,Except.bind] at accepted
    | ok key =>
      rw [parsed] at accepted
      cases known : seen.lookup key.name with
      | some first => simp [checkName,known,bind,Except.bind] at accepted
      | none =>
        cases read : ofValue (entryPath path key.name) v with
        | error cause => simp [checkName,known,read,bind,Except.bind] at accepted
        | ok c =>
          cases further : ofPairs path ((key.name,raw) :: seen) rest with
          | error cause => simp [checkName,known,read,further,bind,Except.bind] at accepted
          | ok cs =>
            simp only [checkName,known,read,further,bind,Except.bind,pure,Except.pure,Except.ok.injEq] at accepted
            exact ⟨key,c,cs,rfl,known,read,further,accepted.symm⟩
  · rintro ⟨key,c,cs,parsed,unseen,read,further,rfl⟩
    simp [ofPairs,readKey,checkName,parsed,unseen,read,further,bind,Except.bind,pure,Except.pure]

theorem ofItems_cons {index : Nat} {items : List Value} {cs : List Content} :
    ofItems path index (v :: items) = .ok cs ↔ ∃ c cs', ofValue (itemPath path index) v = .ok c ∧ ofItems path (index + 1) items = .ok cs' ∧
      cs = c :: cs' := by
  rw [ofItems]
  cases read : ofValue (itemPath path index) v with
  | error cause => simp [bind,Except.bind]
  | ok c =>
    cases further : ofItems path (index + 1) items with
    | error cause => simp [bind,Except.bind]
    | ok cs => simp [bind,Except.bind,pure,Except.pure,eq_comm]

theorem ofItems_of {items : List Value} (each : ∀ v ∈ items, ∃ c, ∀ path, ofValue path v = .ok c) :
    ∃ cs, ∀ path index, ofItems path index items = .ok cs := by
  induction items with
  | nil => exact ⟨[],fun _ _ => rfl⟩
  | cons v rest ih =>
    obtain ⟨⟨c,read⟩,each⟩ := List.forall_mem_cons.mp each
    obtain ⟨cs,further⟩ := ih each
    exact ⟨c :: cs,fun path index => ofItems_cons.mpr ⟨c,cs,read _,further _ _,rfl⟩⟩

theorem ofPairs_of (parsed : List.Forall₂ (fun p key => Key.parse p.1 = .ok key) pairs keys) (distinct : (keys.map Key.name).Nodup)
    (each : ∀ p ∈ pairs, ∃ c, ∀ path, ofValue path p.2 = .ok c) :
    ∃ cs, ∀ path seen, (∀ key ∈ keys, seen.lookup key.name = none) → ofPairs path seen pairs = .ok cs := by
  induction parsed with
  | nil => exact ⟨[],fun _ _ _ => rfl⟩
  | @cons p key pairs keys here _ ih =>
    obtain ⟨fresh,distinct⟩ := List.nodup_cons.mp distinct
    obtain ⟨⟨c,read⟩,each⟩ := List.forall_mem_cons.mp each
    obtain ⟨cs,further⟩ := ih distinct each
    refine ⟨_,fun path seen unseen => ofPairs_cons.mpr ⟨key,c,cs,here,unseen key (by simp),read _,further _ _ fun other member => ?_,rfl⟩⟩
    have differs : other.name ≠ key.name := fun same => fresh (same ▸ List.mem_map_of_mem member)
    rw [List.lookup_cons,beq_false_of_ne differs]
    exact unseen other (List.mem_cons_of_mem _ member)

/-- Such a value is read as the same content wherever it stands. -/
theorem ofValue_of (content : v.IsContent) : ∃ c, ∀ path, ofValue path v = .ok c := by
  induction content with
  | scalar native =>
    obtain ⟨raw,_,read⟩ := literal?_of_native native
    exact ⟨_,read⟩
  | list _ ih =>
    obtain ⟨cs,read⟩ := ofItems_of ih
    exact ⟨.list cs,fun path => by rw [ofValue,read]; rfl⟩
  | mapping parsed distinct _ ih =>
    obtain ⟨cs,read⟩ := ofPairs_of parsed distinct ih
    exact ⟨.mapping cs,fun path => by rw [ofValue,read path [] (by simp)]; rfl⟩

mutual

theorem isContent_of_ofValue {path : Text} {c : Content} (v : Value) (read : ofValue path v = .ok c) : v.IsContent := by
  cases v with
  | list id items =>
    rw [ofValue] at read
    cases inner : ofItems path 0 items with
    | error cause => simp [inner] at read
    | ok cs => exact .list (isContent_of_ofItems items inner)
  | mapping id pairs =>
    rw [ofValue] at read
    cases inner : ofPairs path [] pairs with
    | error cause => simp [inner] at read
    | ok cs =>
      obtain ⟨keys,parsed,distinct,_,each⟩ := isContent_of_ofPairs pairs inner
      exact .mapping parsed distinct each
  | number n =>
    rw [ofValue] at read
    split at read
    · next finite => exact .scalar finite
    · cases read
  | null | bool | text => exact .scalar rfl
  | undefined | set | object => simp [ofValue] at read

theorem isContent_of_ofItems {path : Text} {index : Nat} {cs : List Content} (items : List Value) (read : ofItems path index items = .ok cs) :
    ∀ v ∈ items, v.IsContent := by
  cases items with
  | nil => simp
  | cons v rest =>
    obtain ⟨_,_,here,further,_⟩ := ofItems_cons.mp read
    exact List.forall_mem_cons.mpr ⟨isContent_of_ofValue v here,isContent_of_ofItems rest further⟩

theorem isContent_of_ofPairs {path : Text} {seen : List (Text × Text)} {cs : List (EntryHead × Content)} (pairs : Pairs)
    (read : ofPairs path seen pairs = .ok cs) : ∃ keys, List.Forall₂ (fun p key => Key.parse p.1 = .ok key) pairs keys ∧
      (keys.map Key.name).Nodup ∧ (∀ key ∈ keys, seen.lookup key.name = none) ∧ ∀ p ∈ pairs, p.2.IsContent := by
  match pairs with
  | [] => exact ⟨[],.nil,.nil,by simp,by simp⟩
  | (raw,v) :: rest =>
    obtain ⟨key,_,_,parsed,unseen,here,further,_⟩ := ofPairs_cons.mp read
    obtain ⟨keys,all,distinct,others,each⟩ := isContent_of_ofPairs rest further
    have apart (other : Key) (member : other ∈ keys) : other.name ≠ key.name ∧ seen.lookup other.name = none := by
      have absent := others other member
      rw [List.lookup_cons] at absent
      by_cases same : other.name = key.name
      · simp [same] at absent
      · exact ⟨same,by rwa [beq_false_of_ne same] at absent⟩
    refine ⟨key :: keys,.cons parsed all,List.nodup_cons.mpr ⟨fun member => ?_,distinct⟩,
      List.forall_mem_cons.mpr ⟨unseen,fun other member => (apart other member).2⟩,
      List.forall_mem_cons.mpr ⟨isContent_of_ofValue v here,each⟩⟩
    obtain ⟨other,member,same⟩ := List.mem_map.mp member
    exact (apart other member).1 same

end

end Content

theorem build_ok {raw : Value} {root : Nat} :
    Runs (build raw path) s (.ok root) t ↔ ∃ c, Content.ofValue path raw = .ok c ∧ Runs (plant c) s (.ok root) t := by
  rw [build]
  cases read : Content.ofValue path raw with
  | error cause =>
    refine ⟨fun run => ?_,by simp⟩
    obtain ⟨_,_,failed,_⟩ := Runs.bind_ok run
    exact absurd failed throwCause_fails
  | ok c => simp [orThrow]

/-- What is built stands as it was built from the content that was read, a tree of its own at the end of the store. -/
theorem build_fresh {raw : Value} {root : Nat} (run : Runs (build raw path) s (.ok root) t) :
    ∃ c, (∀ path, Content.ofValue path raw = .ok c) ∧ t.Fresh s.nodes.size none root (.value c) := by
  obtain ⟨c,read,planted⟩ := build_ok.mp run
  obtain ⟨c',everywhere⟩ := Content.ofValue_of (Content.isContent_of_ofValue raw read)
  obtain rfl : c = c' := Except.ok.inj (read.symm.trans (everywhere path))
  obtain ⟨_,_,run',_,_,fresh⟩ := plant_fresh c s
  obtain ⟨same,rfl⟩ := Runs.unique run' planted
  exact ⟨c,everywhere,Except.ok.inj same ▸ fresh⟩

/-- Building succeeds exactly on content. -/
theorem build_ok_iff {raw : Value} : (∃ root t, Runs (build raw path) s (.ok root) t) ↔ raw.IsContent := by
  constructor
  · rintro ⟨root,t,run⟩
    obtain ⟨c,read,_⟩ := build_ok.mp run
    exact Content.isContent_of_ofValue raw read
  · intro content
    obtain ⟨c,read⟩ := Content.ofValue_of content
    obtain ⟨root,t,run,_⟩ := plant_fresh c s
    exact ⟨root,t,build_ok.mpr ⟨c,read path,run⟩⟩

end ConfTree
