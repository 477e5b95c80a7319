import Mathlib.Data.List.Induction
import ConfTree.Overrides

/-!
Overrides as edits of plain content. A value is edited at a path by taking another one for the part
that the path leads to (`Value.put`), overrides edit content one after another (`Overrides.edited`),
and those whose paths lead nowhere are ignored (`Overrides.ignored`). When they come from the fewest
path steps to the most, the outcome is what one descent through the content gives that replaces each
part it comes to as soon as it comes there (`Becomes`, `becomes_edited`).
-/
namespace ConfTree

/-- A name that a key can consist of, declaring nothing. -/
def Key.isBare (key : Text) : Bool := Address.isName key.units && key != Key.reserved

/-- No expression, and no text that an escape keeps from being one. -/
def Settings.isLiteral (settings : Settings) (t : Text) : Bool :=
  !t.startsWith settings.interpolationPrefix && !t.startsWith (settings.escapePrefix ++ settings.interpolationPrefix)

namespace Value

mutual

/-- Native content with bare keys, each once in its mapping, and without expressions. -/
def isPlain (settings : Settings) : Value → Bool
  | .list _ items => allPlain settings items
  | .mapping _ pairs => decide (Pairs.keys pairs).Nodup && allPairsPlain settings pairs
  | .text t => settings.isLiteral t
  | v => v.isNativeScalar

def allPlain (settings : Settings) : List Value → Bool
  | [] => true
  | v :: rest => isPlain settings v && allPlain settings rest

def allPairsPlain (settings : Settings) : Pairs → Bool
  | [] => true
  | (key,v) :: rest => Key.isBare key && isPlain settings v && allPairsPlain settings rest

end

mutual

/-- The value with all identities forgotten: what is left is its content. -/
def bare : Value → Value
  | .list _ items => .list 0 (bareAll items)
  | .mapping _ pairs => .mapping 0 (barePairs pairs)
  | .set _ items => .set 0 (bareAll items)
  | v => v

def bareAll : List Value → List Value
  | [] => []
  | v :: rest => bare v :: bareAll rest

def barePairs : Pairs → Pairs
  | [] => []
  | (key,v) :: rest => (key,bare v) :: barePairs rest

end

theorem bareAll_eq_map (vs : List Value) : bareAll vs = vs.map bare := by
  induction vs with
  | nil => rfl
  | cons v rest ih => rw [bareAll,ih,List.map_cons]

theorem barePairs_eq_map (pairs : Pairs) : barePairs pairs = pairs.map fun p => (p.1,p.2.bare) := by
  induction pairs with
  | nil => rfl
  | cons p rest ih => rw [barePairs,ih,List.map_cons]

/-! ## Edits at paths -/

/-- The index below `count` that a text writes. -/
def index? (count : Nat) (step : Text) : Option Nat := (List.range count).find? fun i => Text.ofNat i == step

/-- The part of a value under a key or at an index. -/
def child? : Value → Text → Option Value
  | .mapping _ pairs, step => Pairs.get? pairs step
  | .list _ items, step => (index? items.length step).bind (items[·]?)
  | _, _ => none

/-- The value with another part in the place of one that it has. -/
def setChild : Value → Text → Value → Value
  | .mapping id pairs, step, part => .mapping id (Pairs.replace step part pairs)
  | .list id items, step, part => .list id (((index? items.length step).map (items.set · part)).getD items)
  | v, _, _ => v

/-- The part of a value at a path. -/
def at? : Value → List Text → Option Value
  | v, [] => some v
  | v, step :: rest => (v.child? step).bind (at? · rest)

/-- The value with another in the place of the part at a path, if there is such a part. -/
def put : Value → List Text → Value → Option Value
  | _, [], new => some new
  | v, step :: rest, new => ((v.child? step).bind (put · rest new)).map (v.setChild step)

end Value

namespace Override

/-- The steps of an override's target. -/
def path (o : Override) : List Text := o.target.splitOn '.'

end Override

namespace Overrides

/-- Content edited by overrides, one after another. -/
def edited : Value → List Override → Value
  | content, [] => content
  | content, o :: rest => edited ((content.put o.path o.value).getD content) rest

/-- The targets of the overrides that find nothing to replace in the content edited so far. -/
def ignored : Value → List Override → List Text
  | _, [] => []
  | content, o :: rest =>
    match content.put o.path o.value with
    | some next => ignored next rest
    | none => o.target :: ignored content rest

/-- The value that overrides give for a path. -/
def replacement (overrides : List Override) (path : List Text) : Option Value :=
  (overrides.find? fun o => o.path == path).map Override.value

end Overrides

/-- What content at a path becomes when each part below it gives way to its replacement, if it has one,
before it is gone through itself. -/
inductive Becomes (replacement : List Text → Option Value) : List Text → Value → Value → Prop
  | scalar {path : List Text} {v : Value} (native : v.isNativeScalar) : Becomes replacement path v v
  | list {path : List Text} {a b : Identity} {items finals : List Value} (sizes : items.length = finals.length)
      (parts : ∀ (i : Nat) v final, items[i]? = some v → finals[i]? = some final →
        Becomes replacement (path ++ [.ofNat i]) ((replacement (path ++ [.ofNat i])).getD v) final) :
      Becomes replacement path (.list a items) (.list b finals)
  | mapping {path : List Text} {a b : Identity} {pairs finals : Pairs} (distinct : (Pairs.keys finals).Nodup)
      (keys : Pairs.keys pairs = Pairs.keys finals)
      (parts : ∀ (i : Nat) key v final, pairs[i]? = some (key,v) → finals[i]? = some (key,final) →
        Becomes replacement (path ++ [key]) ((replacement (path ++ [key])).getD v) final) :
      Becomes replacement path (.mapping a pairs) (.mapping b finals)

/-! ## Parts of values -/

theorem ofChar_digit (c : Char) (digit : c.isDigit) : Char.ofNat (CodeUnit.ofChar c).toNat = c := by
  have range : 48 ≤ c.toNat ∧ c.toNat ≤ 57 := by
    simpa [Char.isDigit,UInt32.le_iff_toNat_le] using digit
  have small : c.val.toUInt16.toNat = c.toNat := by
    rw [UInt32.toNat_toUInt16]
    exact Nat.mod_eq_of_lt (show c.toNat < 65536 by omega)
  rw [CodeUnit.ofChar,small,Char.ofNat_toNat]

theorem Text.ofNat_injective : Function.Injective Text.ofNat := by
  intro m n same
  have decode (k : Nat) : (Text.ofNat k).units.map (fun u => Char.ofNat u.toNat) = Nat.toDigits 10 k := by
    rw [Text.ofNat,List.map_map]
    refine (List.map_congr_left fun c member => ?_).trans (List.map_id _)
    exact ofChar_digit c (Nat.isDigit_of_mem_toDigits (by decide) (by decide) member)
  rw [← Nat.ofDigitChars_toDigits (b := 10) (n := m) (by decide) (by decide),← decode,same,decode,
    Nat.ofDigitChars_toDigits (by decide) (by decide)]

namespace Pairs

variable {α : Type} {pairs : List (Text × α)} {key other : Text} {v : α}

theorem get?_cons {k : Text} {w : α} {rest : List (Text × α)} :
    get? ((k,w) :: rest) key = if key = k then some w else get? rest key := by
  rw [get?,List.lookup_cons]
  by_cases same : key = k
  · simp [same]
  · rw [if_neg same,beq_false_of_ne same]
    rfl

theorem get?_replace : get? (replace key v pairs) other =
    if other = key ∧ (get? pairs key).isSome then some v else get? pairs other := by
  induction pairs with
  | nil => simp [get?,replace]
  | cons p rest ih =>
    obtain ⟨k,w⟩ := p
    by_cases found : k = key
    · subst found
      by_cases same : other = k <;> simp [replace,get?_cons,same]
    · rw [replace,if_neg found,get?_cons,get?_cons,get?_cons,ih]
      by_cases same : other = k
      · subst same
        simp [found]
      · simp [same,Ne.symm found]

theorem keys_replace : keys (replace key v pairs) = keys pairs := by
  induction pairs with
  | nil => rfl
  | cons p rest ih =>
    obtain ⟨k,w⟩ := p
    by_cases found : k = key
    · simp [replace,keys,found]
    · simpa [replace,keys,found] using ih

/-- Under distinct keys, only the pair of the key written is another one. -/
theorem getElem?_replace (distinct : (keys pairs).Nodup) (i : Nat) : (replace key v pairs)[i]? =
    pairs[i]?.map fun p => if p.1 = key then (key,v) else p := by
  induction pairs generalizing i with
  | nil => simp [replace]
  | cons p rest ih =>
    obtain ⟨k,w⟩ := p
    have absent : k ∉ keys rest := (List.nodup_cons.mp distinct).1
    by_cases found : k = key
    · subst found
      cases i with
      | zero => simp [replace]
      | succ i =>
        simp only [replace,if_true,List.getElem?_cons_succ]
        rcases pair : rest[i]? with _ | q
        · rfl
        · have differs : q.1 ≠ k := by
            rintro rfl
            exact absent (List.mem_map_of_mem (List.mem_of_getElem? pair))
          simp [differs]
    · cases i with
      | zero => simp [replace,found]
      | succ i => simpa [replace,found] using ih (List.nodup_cons.mp distinct).2 i

theorem get?_eq_of_getElem? (distinct : (keys pairs).Nodup) {i : Nat} (pair : pairs[i]? = some (key,v)) :
    get? pairs key = some v := by
  induction pairs generalizing i with
  | nil => simp at pair
  | cons p rest ih =>
    obtain ⟨k,w⟩ := p
    cases i with
    | zero =>
      obtain ⟨rfl,rfl⟩ : k = key ∧ w = v := by simpa using pair
      simp [get?_cons]
    | succ i =>
      have later : rest[i]? = some (key,v) := by simpa using pair
      have member : key ∈ keys rest := List.mem_map_of_mem (List.mem_of_getElem? later)
      have differs : key ≠ k := fun same => (List.nodup_cons.mp distinct).1 (same ▸ member)
      simpa [get?_cons,differs] using ih (List.nodup_cons.mp distinct).2 later

theorem getElem?_of_get? (found : get? pairs key = some v) : ∃ i : Nat, pairs[i]? = some (key,v) := by
  have member : (key,v) ∈ pairs := by
    induction pairs with
    | nil => simp [get?] at found
    | cons p rest ih =>
      obtain ⟨k,w⟩ := p
      by_cases same : key = k
      · subst same
        simp_all [get?_cons]
      · exact List.mem_cons_of_mem _ (ih (by simpa [get?_cons,same] using found))
  exact List.getElem?_of_mem member

theorem get?_eq_some_iff (distinct : (keys pairs).Nodup) : get? pairs key = some v ↔ (key,v) ∈ pairs := by
  rw [List.mem_iff_getElem?]
  exact ⟨getElem?_of_get?,fun ⟨_,pair⟩ => get?_eq_of_getElem? distinct pair⟩

end Pairs

namespace Value

variable {id : Identity} {items : List Value} {pairs : Pairs} {step other : Text} {v part new : Value} {i : Nat}

theorem index?_eq_some {count : Nat} : index? count step = some i ↔ i < count ∧ step = .ofNat i := by
  rw [index?,List.find?_range_eq_some]
  constructor
  · rintro ⟨same,inside,-⟩
    exact ⟨List.mem_range.mp inside,(beq_iff_eq.mp same).symm⟩
  · rintro ⟨inside,rfl⟩
    refine ⟨by simp,List.mem_range.mpr inside,fun j before => ?_⟩
    simpa using fun same => absurd (Text.ofNat_injective same) (by omega)

theorem index?_ofNat (inside : i < items.length) : index? items.length (.ofNat i) = some i :=
  index?_eq_some.mpr ⟨inside,rfl⟩

theorem child?_list : (list id items).child? step = some v ↔ ∃ i : Nat, step = .ofNat i ∧ items[i]? = some v := by
  rw [child?,Option.bind_eq_some_iff]
  constructor
  · rintro ⟨i,index,item⟩
    exact ⟨i,(index?_eq_some.mp index).2,item⟩
  · rintro ⟨i,rfl,item⟩
    exact ⟨i,index?_ofNat (List.getElem?_eq_some_iff.mp item).1,item⟩

theorem child?_mapping : (mapping id pairs).child? step = Pairs.get? pairs step := rfl

theorem setChild_list (inside : i < items.length) : (list id items).setChild (.ofNat i) part = list id (items.set i part) := by
  simp [setChild,index?_ofNat inside]

theorem child?_setChild_same (present : (v.child? step).isSome) : (v.setChild step part).child? step = some part := by
  obtain ⟨old,present⟩ := Option.isSome_iff_exists.mp present
  cases v with
  | mapping id pairs =>
    rw [child?_mapping] at present
    rw [setChild,child?_mapping,Pairs.get?_replace,if_pos ⟨rfl,by simp [present]⟩]
  | list id items =>
    obtain ⟨i,rfl,item⟩ := child?_list.mp present
    have inside := (List.getElem?_eq_some_iff.mp item).1
    rw [setChild_list inside]
    exact child?_list.mpr ⟨i,rfl,by simp [inside]⟩
  | _ => simp [child?] at present

theorem child?_setChild_other (present : (v.child? step).isSome) (differ : other ≠ step) :
    (v.setChild step part).child? other = v.child? other := by
  obtain ⟨old,present⟩ := Option.isSome_iff_exists.mp present
  cases v with
  | mapping id pairs =>
    rw [setChild,child?_mapping,child?_mapping,Pairs.get?_replace,if_neg (fun both => differ both.1)]
  | list id items =>
    obtain ⟨i,rfl,item⟩ := child?_list.mp present
    rw [setChild_list (List.getElem?_eq_some_iff.mp item).1]
    refine Option.ext fun w => ?_
    rw [child?_list,child?_list]
    refine exists_congr fun j => and_congr_right fun place => ?_
    have apart : i ≠ j := by
      rintro rfl
      exact differ place
    simp [apart]
  | _ => simp [child?] at present

theorem put_cons {rest : List Text} {w : Value} : v.put (step :: rest) new = some w ↔
    ∃ old part, v.child? step = some old ∧ old.put rest new = some part ∧ v.setChild step part = w := by
  rw [put,Option.map_eq_some_iff]
  constructor
  · rintro ⟨part,below,rfl⟩
    obtain ⟨old,present,below⟩ := Option.bind_eq_some_iff.mp below
    exact ⟨old,part,present,below,rfl⟩
  · rintro ⟨old,part,present,below,rfl⟩
    exact ⟨part,by rw [present]; exact below,rfl⟩

theorem put_isSome (path : List Text) (v new : Value) : (v.put path new).isSome = (v.at? path).isSome := by
  induction path generalizing v with
  | nil => rfl
  | cons step rest ih =>
    rw [put,at?,Option.isSome_map]
    cases v.child? step with
    | none => rfl
    | some part => exact ih part

/-- An edit changes nothing about which paths lead somewhere, but for those through its own path. -/
theorem at?_put {path : List Text} {w : Value} (edit : v.put path new = some w) {q : List Text}
    (apart : ¬ path <+: q) : (w.at? q).isSome = (v.at? q).isSome := by
  induction path generalizing v w q with
  | nil => exact absurd List.nil_prefix apart
  | cons step rest ih =>
    obtain ⟨old,part,present,edited,rfl⟩ := put_cons.mp edit
    have shown : (v.child? step).isSome := by rw [present]; rfl
    cases q with
    | nil => rfl
    | cons next q =>
      rw [at?,at?]
      by_cases same : next = step
      · subst same
        have further : ¬ rest <+: q := fun before => apart (List.cons_prefix_cons.mpr ⟨rfl,before⟩)
        rw [child?_setChild_same shown,present]
        exact ih edited further
      · rw [child?_setChild_other shown same]

theorem at?_of_put {path : List Text} {w : Value} (edit : v.put path new = some w) : (w.at? path).isSome := by
  induction path generalizing v w with
  | nil => rfl
  | cons step rest ih =>
    obtain ⟨old,part,present,edited,rfl⟩ := put_cons.mp edit
    rw [at?,child?_setChild_same (by rw [present]; rfl)]
    exact ih edited

variable {settings : Settings}

theorem isPlain_list : (list id items).isPlain settings = true ↔ ∀ v ∈ items, v.isPlain settings = true := by
  rw [isPlain]
  induction items with
  | nil => simp [allPlain]
  | cons v rest ih => simp [allPlain,ih]

theorem isPlain_mapping : (mapping id pairs).isPlain settings = true ↔
    (Pairs.keys pairs).Nodup ∧ ∀ p ∈ pairs, Key.isBare p.1 = true ∧ p.2.isPlain settings = true := by
  rw [isPlain,Bool.and_eq_true,decide_eq_true_eq]
  refine and_congr Iff.rfl ?_
  induction pairs with
  | nil => simp [allPairsPlain]
  | cons p rest ih => simp [allPairsPlain,ih]

/-- What holds of plain scalars, and of plain containers when it holds of their parts, holds of all plain
values. -/
theorem plain_induction {motive : Value → Prop}
    (scalar : ∀ v, v.isNativeScalar = true → v.isPlain settings = true → motive v)
    (list : ∀ id items, (Value.list id items).isPlain settings = true → (∀ v ∈ items, motive v) → motive (.list id items))
    (mapping : ∀ id pairs, (Value.mapping id pairs).isPlain settings = true → (∀ p ∈ pairs, motive p.2) →
      motive (.mapping id pairs)) (v : Value) (plain : v.isPlain settings = true) : motive v := by
  match v with
  | .list id items =>
    refine list id items plain fun v member => ?_
    exact plain_induction scalar list mapping v (isPlain_list.mp plain v member)
  | .mapping id pairs =>
    refine mapping id pairs plain fun p member => ?_
    exact plain_induction scalar list mapping p.2 ((isPlain_mapping.mp plain).2 p member).2
  | .text t => exact scalar _ rfl plain
  | .null | .bool _ | .number _ => exact scalar _ plain plain
  | .undefined | .set .. | .object _ => simp [isPlain,isNativeScalar] at plain
termination_by sizeOf v
decreasing_by
  · have := List.sizeOf_lt_of_mem member
    simp +arith; omega
  · have := List.sizeOf_lt_of_mem member
    rcases p with ⟨key,v⟩
    simp at *; omega

end Value

/-! ## One descent and one edit after another -/

namespace Becomes

open Value

variable {old new : List Text → Option Value} {path : List Text} {v final : Value}

/-- Only the replacements below a path matter to what becomes of the content there. -/
theorem congr (becomes : Becomes old path v final) (same : ∀ step rest, new (path ++ step :: rest) = old (path ++ step :: rest)) :
    Becomes new path v final := by
  induction becomes with
  | scalar native => exact .scalar native
  | list sizes _ ih =>
    refine .list sizes fun i v final item last => ?_
    rw [same]
    exact ih i v final item last fun step rest => by simpa using same (.ofNat i) (step :: rest)
  | mapping distinct keys _ ih =>
    refine .mapping distinct keys fun i key v final pair last => ?_
    rw [same]
    exact ih i key v final pair last fun step rest => by simpa using same key (step :: rest)

/-- Without replacements below it, plain content stays as it is. -/
theorem refl {settings : Settings} (plain : v.isPlain settings = true) (none : ∀ step rest, old (path ++ step :: rest) = .none) :
    Becomes old path v v := by
  refine plain_induction (motive := fun v => ∀ path, (∀ step rest, old (path ++ step :: rest) = .none) → Becomes old path v v)
    ?scalar ?list ?mapping v plain path none
  case scalar => exact fun v native _ path _ => .scalar native
  case list =>
    intro id items _ ih path none
    refine .list rfl fun i v final item last => ?_
    obtain rfl : v = final := by simpa [item] using last
    rw [none,Option.getD_none]
    exact ih v (List.mem_of_getElem? item) _ fun step rest => by simpa using none (.ofNat i) (step :: rest)
  case mapping =>
    intro id pairs plain ih path none
    refine .mapping (isPlain_mapping.mp plain).1 rfl fun i key v final pair last => ?_
    obtain rfl : v = final := by simpa [pair] using last
    rw [none,Option.getD_none]
    exact ih (key,v) (List.mem_of_getElem? pair) _ fun step rest => by simpa using none key (step :: rest)

/-- One more replacement, at the path `target`, which lies below all those whose replacements are known. -/
abbrev withEdit (old : List Text → Option Value) (target : List Text) (part : Value) : List Text → Option Value :=
  Function.update old target (some part)

variable {settings : Settings} {target rest : List Text} {part edited : Value}

private theorem withEdit_apart {step other : Text} {more : List Text} (here : target = path ++ step :: rest) (apart : other ≠ step) :
    withEdit old target part (path ++ other :: more) = old (path ++ other :: more) := by
  refine Function.update_of_ne (fun same => apart ?_) _ _
  rw [here] at same
  exact (List.cons.inj (List.append_cancel_left same)).1

/-- The part that an edit leads through or to, if it is right for the edits further down. -/
private theorem through (plain : part.isPlain settings = true)
    (deepest : ∀ step more, old (target ++ step :: more) = none) (here : target = path ++ rest)
    (edit : final.put rest part = some edited)
    (further : rest ≠ [] → Becomes (withEdit old target part) path ((old path).getD v) edited) :
    Becomes (withEdit old target part) path ((withEdit old target part path).getD v) edited := by
  by_cases last : rest = []
  · subst last
    obtain rfl : target = path := by simpa using here
    obtain rfl : part = edited := by simpa [put] using edit
    rw [withEdit,Function.update_self,Option.getD_some]
    exact refl plain fun step more => (Function.update_of_ne (by simp) _ _).trans (deepest step more)
  · have differs : path ≠ target := by simpa [here] using last
    rw [show withEdit old target part path = old path from Function.update_of_ne differs _ _]
    exact further last

/-- An edit of what the content becomes is one more replacement, if none is known further down. -/
theorem edit (plain : part.isPlain settings = true) (deepest : ∀ step more, old (target ++ step :: more) = none)
    (becomes : Becomes old path v final) (here : target = path ++ rest) (inside : rest ≠ [])
    (edit : final.put rest part = some edited) : Becomes (withEdit old target part) path v edited := by
  induction becomes generalizing rest edited with
  | @scalar path v native =>
    obtain ⟨step,rest,rfl⟩ := List.exists_cons_of_ne_nil inside
    obtain ⟨u,_,present,_⟩ := put_cons.mp edit
    cases v <;> simp [child?,isNativeScalar] at present native
  | @list path a b items finals sizes parts ih =>
    obtain ⟨step,rest,rfl⟩ := List.exists_cons_of_ne_nil inside
    obtain ⟨u,w,present,below,rfl⟩ := put_cons.mp edit
    obtain ⟨j,rfl,found⟩ := child?_list.mp present
    have bound := (List.getElem?_eq_some_iff.mp found).1
    rw [setChild_list bound]
    refine .list (by simpa using sizes) fun i v final item last => ?_
    by_cases same : i = j
    · subst same
      obtain rfl : w = final := by simpa [bound] using last
      have here : target = path ++ [.ofNat i] ++ rest := by simpa using here
      exact through plain deepest here below fun more => ih i v u item found here more below
    · have apart : Text.ofNat i ≠ Text.ofNat j := fun equal => same (Text.ofNat_injective equal)
      rw [List.getElem?_set_ne (Ne.symm same)] at last
      rw [withEdit_apart here apart]
      refine (parts i v final item last).congr fun step more => ?_
      simpa using withEdit_apart here apart
  | @mapping path a b pairs finals distinct keys parts ih =>
    obtain ⟨step,rest,rfl⟩ := List.exists_cons_of_ne_nil inside
    obtain ⟨u,w,present,below,rfl⟩ := put_cons.mp edit
    rw [child?_mapping] at present
    refine .mapping (by rwa [Pairs.keys_replace]) (by rw [Pairs.keys_replace,keys]) fun i key v final pair last => ?_
    rw [Pairs.getElem?_replace distinct,Option.map_eq_some_iff] at last
    obtain ⟨⟨k,t⟩,found,last⟩ := last
    by_cases same : k = step
    · subst same
      obtain ⟨rfl,rfl⟩ : k = key ∧ w = final := by simpa using last
      obtain rfl : t = u := Option.some.inj ((Pairs.get?_eq_of_getElem? distinct found).symm.trans present)
      have here : target = path ++ [k] ++ rest := by simpa using here
      exact through plain deepest here below fun more => ih i k v t pair found here more below
    · obtain ⟨rfl,rfl⟩ : k = key ∧ t = final := by simpa [same] using last
      rw [withEdit_apart here same]
      refine (parts i k v t pair found).congr fun step more => ?_
      simpa using withEdit_apart here same

/-- The part that a path leading nowhere leads through, if it is right further down. -/
private theorem past (here : target = path ++ rest) (absent : final.at? rest = none)
    (further : rest ≠ [] → Becomes (withEdit old target part) path ((old path).getD v) final) :
    Becomes (withEdit old target part) path ((withEdit old target part path).getD v) final := by
  have more : rest ≠ [] := by
    rintro rfl
    cases absent
  have differs : path ≠ target := by simpa [here] using more
  rw [show withEdit old target part path = old path from Function.update_of_ne differs _ _]
  exact further more

/-- A replacement at a path that leads nowhere is never come to. -/
theorem missed (becomes : Becomes old path v final) (here : target = path ++ rest) (inside : rest ≠ [])
    (absent : final.at? rest = none) : Becomes (withEdit old target part) path v final := by
  induction becomes generalizing rest with
  | scalar native => exact .scalar native
  | @list path a b items finals sizes parts ih =>
    obtain ⟨step,rest,rfl⟩ := List.exists_cons_of_ne_nil inside
    refine .list sizes fun i v final item last => ?_
    by_cases same : Text.ofNat i = step
    · have here : target = path ++ [.ofNat i] ++ rest := by simpa [same] using here
      have absent : final.at? rest = none := by
        simpa [at?,child?_list.mpr ⟨i,same.symm,last⟩] using absent
      exact past here absent fun more => ih i v final item last here more absent
    · rw [withEdit_apart here same]
      refine (parts i v final item last).congr fun step more => ?_
      simpa using withEdit_apart here same
  | @mapping path a b pairs finals distinct keys parts ih =>
    obtain ⟨step,rest,rfl⟩ := List.exists_cons_of_ne_nil inside
    refine .mapping distinct keys fun i key v final pair last => ?_
    by_cases same : key = step
    · subst same
      have here : target = path ++ [key] ++ rest := by simpa using here
      have absent : final.at? rest = none := by
        simpa [at?,child?_mapping,Pairs.get?_eq_of_getElem? distinct last] using absent
      exact past here absent fun more => ih i key v final pair last here more absent
    · rw [withEdit_apart here same]
      refine (parts i key v final pair last).congr fun step more => ?_
      simpa using withEdit_apart here same

end Becomes

namespace Overrides

open Value

variable {settings : Settings} {content next : Value} {overrides : List Override} {o : Override} {path : List Text}

/-- The overrides in an order in which none is aimed above an earlier one, nor at the same place. -/
def Descending (overrides : List Override) : Prop :=
  overrides.Pairwise fun earlier later => ¬ later.path <+: earlier.path

theorem path_ne_nil (o : Override) : o.path ≠ [] := Text.splitOn_ne_nil _ _

theorem target_eq_join (o : Override) : o.target = .join "." o.path := (Text.join_splitOn _ _).symm

theorem path_injective {a b : Override} (same : a.path = b.path) : a.target = b.target := by
  rw [target_eq_join,target_eq_join b,same]

/-- Overrides from the fewest path steps to the most, one a target, are in such an order. -/
theorem descending_of_sorted (distinct : (overrides.map Override.target).Nodup)
    (sorted : overrides.Pairwise fun a b => a.path.length ≤ b.path.length) : Descending overrides := by
  have apart : overrides.Pairwise fun a b => a.target ≠ b.target := List.pairwise_map.mp distinct
  refine (sorted.and apart).imp fun {a b} both before => both.2 ?_
  exact path_injective (before.eq_of_length_le both.1).symm

theorem edited_append (content : Value) (first second : List Override) :
    edited content (first ++ second) = edited (edited content first) second := by
  induction first generalizing content with
  | nil => rfl
  | cons o rest ih => exact ih _

theorem replacement_append (fresh : ∀ p ∈ overrides, p.path ≠ o.path) :
    replacement (overrides ++ [o]) = Becomes.withEdit (replacement overrides) o.path o.value := by
  funext path
  by_cases same : path = o.path
  · subst same
    have none : overrides.find? (fun p => p.path == o.path) = none := by
      simpa using fresh
    simp [replacement,List.find?_append,none]
  · rw [Becomes.withEdit,Function.update_of_ne same]
    simp [replacement,List.find?_append,Ne.symm same]

/-- Overrides that edit plain content one after another, none above an earlier one, do what one descent
does that replaces each part as it comes to it. -/
theorem becomes_edited (plain : content.isPlain settings = true) (values : ∀ o ∈ overrides, o.value.isPlain settings = true)
    (order : Descending overrides) : Becomes (replacement overrides) [] content (edited content overrides) := by
  induction overrides using List.reverseRecOn with
  | nil => exact .refl plain fun _ _ => rfl
  | append_singleton earlier o ih =>
    have ordered := List.pairwise_append.mp order
    have above (p : Override) (member : p ∈ earlier) : ¬ o.path <+: p.path := ordered.2.2 p member o (by simp)
    have becomes := ih (fun p member => values p (by simp [member])) ordered.1
    rw [replacement_append fun p member same => above p member (same ▸ List.prefix_refl _),edited_append]
    simp only [edited]
    rcases outcome : (edited content earlier).put o.path o.value with _ | final
    · have absent : (edited content earlier).at? o.path = none := by
        simpa [put_isSome _ _ o.value] using congrArg Option.isSome outcome
      exact becomes.missed rfl (path_ne_nil o) absent
    · refine becomes.edit (values o (by simp)) (fun step more => ?_) rfl (path_ne_nil o) outcome
      have none : earlier.find? (fun p => p.path == o.path ++ step :: more) = none := by
        simpa using fun p member (same : p.path = _) => above p member (same ▸ List.prefix_append _ _)
      simp [replacement,none]

/-- Whether a path leads somewhere does not change by overrides that are not aimed at it or above it. -/
theorem at?_edited (apart : ∀ o ∈ overrides, ¬ o.path <+: path) :
    ((edited content overrides).at? path).isSome = (content.at? path).isSome := by
  induction overrides generalizing content with
  | nil => rfl
  | cons o rest ih =>
    rw [edited,ih fun p member => apart p (by simp [member])]
    rcases outcome : content.put o.path o.value with _ | next
    · rfl
    · exact at?_put outcome (apart o (by simp))

theorem mem_of_mem_ignored {target : Text} (member : target ∈ ignored content overrides) :
    target ∈ overrides.map Override.target := by
  induction overrides generalizing content with
  | nil => cases member
  | cons o rest ih =>
    rw [ignored] at member
    split at member
    · exact List.mem_cons_of_mem _ (ih member)
    · exact (List.mem_cons.mp member).elim (fun same => by simp [same]) fun later => List.mem_cons_of_mem _ (ih later)

/-- The overrides that are ignored are those whose paths lead nowhere in the outcome. -/
theorem mem_ignored (order : Descending overrides) (distinct : (overrides.map Override.target).Nodup) (member : o ∈ overrides) :
    o.target ∈ ignored content overrides ↔ ((edited content overrides).at? o.path).isSome = false := by
  induction overrides generalizing content with
  | nil => cases member
  | cons p rest ih =>
    obtain ⟨above,order⟩ := List.pairwise_cons.mp order
    obtain ⟨fresh,distinct⟩ := List.nodup_cons.mp distinct
    rw [edited,ignored]
    rcases List.mem_cons.mp member with rfl | later
    · rw [at?_edited above]
      rcases outcome : content.put o.path o.value with _ | next
      · simp [← put_isSome _ _ o.value,outcome]
      · simpa [at?_of_put outcome] using fun again => fresh (mem_of_mem_ignored again)
    · have differs : o.target ≠ p.target := fun same => fresh (same ▸ List.mem_map_of_mem later)
      rcases outcome : content.put p.path p.value with _ | next
      · simpa [differs] using ih order distinct later
      · exact ih order distinct later

end Overrides

end ConfTree
