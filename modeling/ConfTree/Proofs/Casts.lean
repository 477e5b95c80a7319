import ConfTree.Declaration
import ConfTree.Eval.Cast
import ConfTree.Proofs.Arithmetic
import ConfTree.Proofs.Equality
import ConfTree.Proofs.Runs

/-!
# Casts

A type called with a value gives one of its own values (`invoke_accepted_iff`), but for a number that is not finite: `int` and
`float` let it pass, although they do not accept it. What a type accepts it gives back with the same content
(`invoke_of_accepted`), and so a value that was cast once is not changed by the same cast again (`invoke_twice`), not even one
that the type does not accept. A set is taken to hold no member twice, as the sets that the language makes do
(`members_distinct`).
-/
namespace ConfTree

namespace Number

variable {x : Number} {a i : Int}

/-- The integer part of a number is a number. -/
theorem exact_tdiv (fits : Representable a) : Exact (a.tdiv stepsPerOne) := by
  obtain ⟨⟨s,divides,few⟩,inside⟩ := fits
  obtain ⟨t,l,one,-,-⟩ := exists_powers
  have less : (a.tdiv stepsPerOne * (stepsPerOne : Int)).natAbs ≤ a.natAbs := by
    rw [natAbs_whole,Int.natAbs_tdiv,Int.natAbs_natCast]
    exact Nat.div_mul_le_self a.natAbs stepsPerOne
  refine exact_iff.mpr ⟨?_,by omega⟩
  by_cases fine : s < t
  · have room : Nat.pow 2 53 * Nat.pow 2 s ≤ Nat.pow 2 53 * Nat.pow 2 t :=
      Nat.mul_le_mul_left _ (Nat.pow_le_pow_right (by decide) (by omega))
    refine ⟨t,?_,by omega⟩
    rw [natAbs_whole,one]
    exact Nat.dvd_mul_left ..
  · have whole : (stepsPerOne : Int) ∣ a := by
      rw [Int.ofNat_dvd_left,one]
      exact Nat.dvd_trans (Nat.pow_dvd_pow 2 (by omega)) divides
    rw [Int.tdiv_mul_cancel whole]
    exact ⟨s,divides,few⟩

theorem int?_ofInt (exact : Exact i) : (ofInt i).int? = some i := by
  have fits := exact_iff.mp exact
  rw [int?_eq_some,ofInt,steps?_ofSteps,nearest_exact fits,if_pos fits.2]

theorem int?_signedZero (negative : Bool) : (signedZero negative).int? = some 0 := by
  rw [int?_eq_some,Int.zero_mul]
  cases negative <;> rfl

theorem int?_trunc (finite : x.steps? = some a) : x.trunc.int? = some (a.tdiv stepsPerOne) := by
  have exact := exact_tdiv (representable_of_steps? finite)
  rcases eq_finite finite with ⟨fits,rfl⟩ | ⟨rfl,rfl⟩
  · show (wholeLike (Number.finite a fits) (a.tdiv stepsPerOne)).int? = _
    unfold wholeLike
    by_cases vanishes : a.tdiv stepsPerOne = 0
    · rw [if_pos vanishes,vanishes]
      exact int?_signedZero _
    · rw [if_neg vanishes]
      exact int?_ofInt exact
  · rw [Int.zero_tdiv]
    exact int?_signedZero true

/-- A whole number is its integer part. -/
theorem trunc_whole (whole : x.int? = some i) : x.trunc = x := by
  have steps := int?_eq_some.mp whole
  have positive := Int.ne_of_gt stepsPerOne_natCast_pos
  cases x with
  | nan | infinite => cases steps
  | negZero => rfl
  | finite k fits =>
    have count : k = i * stepsPerOne := Option.some.inj steps
    have quotient : k.tdiv stepsPerOne = i := by
      rw [count]
      exact Int.mul_tdiv_cancel i positive
    show wholeLike (Number.finite k fits) (k.tdiv stepsPerOne) = _
    rw [wholeLike,quotient]
    by_cases vanishes : i = 0
    · rw [vanishes,Int.zero_mul] at count
      rw [if_pos vanishes]
      subst count
      rfl
    · rw [if_neg vanishes,ofInt,← count]
      exact ofSteps_exact fits (count ▸ whole_ne_zero vanishes)

theorem trunc_of_not_finite (endless : x.isFinite = false) : x.trunc = x := by
  cases x <;> first | rfl | cases endless

/-- The integer part of a finite number is an integer, and no other one is. -/
theorem isInteger_trunc (x : Number) : x.trunc.isInteger = x.isFinite := by
  cases x with
  | nan | infinite => rfl
  | negZero => exact Option.isSome_of_eq_some (int?_trunc (a := 0) rfl)
  | finite k fits => exact Option.isSome_of_eq_some (int?_trunc (a := k) rfl)

theorem trunc_trunc (x : Number) : x.trunc.trunc = x.trunc := by
  cases x with
  | nan | infinite | negZero => rfl
  | finite k fits => exact trunc_whole (int?_trunc (a := k) rfl)

end Number

/-! ## Members of sets -/

namespace Value

variable {items : List Value}

/-- Values of which a set counts no two as one, as it keeps them. -/
def Distinct (items : List Value) : Prop := (∀ v ∈ items, asMember v = v) ∧ items.Pairwise fun x y => sameMember x y = false

theorem asMember_asMember (v : Value) : asMember (asMember v) = asMember v := by
  cases v with
  | number n => cases n <;> rfl
  | _ => rfl

theorem sameMember_asMember (v w : Value) : sameMember v (asMember w) = sameMember v w := by
  cases w with
  | number n =>
    cases n with
    | negZero =>
      cases v with
      | number m => simp [sameMember,asMember,Number.sameMember,Number.same_zero]; rfl
      | _ => rfl
    | _ => rfl
  | _ => rfl

theorem Distinct.addMember (distinct : Distinct items) (v : Value) : Distinct (addMember items v) := by
  unfold Value.addMember
  split
  · exact distinct
  · next fresh =>
    constructor
    · intro w member
      rcases List.mem_append.mp member with old | last
      · exact distinct.1 w old
      · rw [List.mem_singleton.mp last,asMember_asMember]
    · refine List.pairwise_append.mpr ⟨distinct.2,List.pairwise_singleton ..,?_⟩
      intro x member y last
      rw [List.mem_singleton.mp last,sameMember_asMember]
      simpa using fun same => fresh (List.any_eq_true.mpr ⟨x,member,same⟩)

/-- The members of a set are distinct. -/
theorem members_distinct (items : List Value) : Distinct (members items) := by
  suffices from_any : ∀ seen, Distinct seen → Distinct (items.foldl Value.addMember seen) from from_any [] ⟨nofun,.nil⟩
  induction items with
  | nil =>
    intro seen distinct
    exact distinct
  | cons v rest ih =>
    intro seen distinct
    exact ih _ (distinct.addMember v)

/-- A set of distinct values has these for its members. -/
theorem members_of_distinct (distinct : Distinct items) : members items = items := by
  suffices from_any : ∀ seen, Distinct (seen ++ items) → items.foldl Value.addMember seen = seen ++ items from from_any [] distinct
  clear distinct
  induction items with
  | nil => simp
  | cons v rest ih =>
    intro seen distinct
    have kept : asMember v = v := distinct.1 v (by simp)
    have fresh : seen.any (sameMember · v) = false := by
      rw [List.any_eq_false]
      intro x member
      simpa using (List.pairwise_append.mp distinct.2).2.2 x member v List.mem_cons_self
    have added : Value.addMember seen v = seen ++ [v] := by
      unfold Value.addMember
      rw [fresh,kept]
      rfl
    rw [List.foldl_cons,added,ih (seen ++ [v]) (by simpa using distinct)]
    simp

end Value

/-! ## Conversions -/

namespace Cast

open Value

variable {type : TypeName} {v w : Value} {n : Number} {s t : Store}

/-- What a type makes of a value. -/
inductive Gives : TypeName → Value → Value → Prop where
  | int {v : Value} {n : Number} (number : toNumber .int v = .ok n) : Gives .int v (.number n.trunc)
  | float {v : Value} {n : Number} (number : toNumber .float v = .ok n) : Gives .float v (.number n)
  | number {v : Value} {n : Number} (number : toNumber .number v = .ok n) : Gives .number v (.number n)
  | str (v : Value) (t : Text) : Gives .str v (.text t)
  | bool (v : Value) : Gives .bool v (.bool v.isTruthy)
  | list {v : Value} {items : List Value} (id : Identity) (listed : parts v = .ok items) : Gives .list v (.list id items)
  | set {v : Value} {items : List Value} (id : Identity) (listed : parts v = .ok items) : Gives .set v (.set id (members items))
  | dict (v : Value) (id : Identity) (pairs : Pairs) : Gives .dict v (.mapping id pairs)

theorem toInteger_ok (converted : toInteger v = .ok n) : ∃ m, toNumber .int v = .ok m ∧ n = m.trunc := by
  have part : Number.trunc <$> toNumber .int v = .ok n := by
    unfold toInteger at converted
    split at converted
    · split at converted
      · exact converted
      · cases converted
    · exact converted
  rcases number : toNumber .int v with failure | m
  · rw [number] at part
    cases part
  · rw [number] at part
    cases part
    exact ⟨m,rfl,rfl⟩

theorem convert_gives {first next : Identity} (other : type ≠ .str) (done : convert type v [] first = .ok (w,next)) :
    Gives type v w := by
  cases type with
  | str => exact absurd rfl other
  | int =>
    rcases integer : toInteger v with failure | n <;> simp only [convert,integer] at done <;> cases done
    obtain ⟨m,number,rfl⟩ := toInteger_ok integer
    exact .int number
  | float =>
    rcases number : toNumber .float v with failure | n <;> simp only [convert,number] at done <;> cases done
    exact .float number
  | number =>
    rcases number : toNumber .number v with failure | n <;> simp only [convert,number] at done <;> cases done
    exact .number number
  | bool =>
    cases done
    exact .bool v
  | list =>
    rcases listed : parts v with issue | items <;> simp only [convert,listed] at done <;> cases done
    exact .list _ listed
  | set =>
    rcases listed : parts v with issue | items <;> simp only [convert,listed] at done <;> cases done
    exact .set _ listed
  | dict =>
    rcases listed : toPairs v first with failure | ⟨pairs,later⟩ <;>
      simp only [convert,bind,StateT.bind,listed,Except.bind] at done <;> cases done
    exact .dict v _ _

theorem invoke_gives (run : Runs (invoke type [v] []) s (.ok w) t) : Gives type v w := by
  by_cases text : type = .str
  · subst text
    obtain ⟨t,u,_,last⟩ := Runs.bind_ok run
    obtain ⟨same,_⟩ := Runs.pure_iff.mp last
    cases same
    exact .str v _
  · have work : invoke type [v] [] = StoreM.compute (convert type v []) := by
      cases type <;> first | rfl | exact absurd rfl text
    rw [work] at run
    obtain ⟨next,done,_⟩ := StoreM.compute_inv run
    exact convert_gives text done

/-! ## Values of a type -/

/-- The types of which all numbers are finite. -/
def isStrict : TypeName → Bool
  | .int | .float => true
  | _ => false

/-- A number that is not finite, for a type that has only finite ones. -/
def Overflows (type : TypeName) (v : Value) : Prop := isStrict type = true ∧ ∃ n, v = .number n ∧ n.isFinite = false

theorem isFinite_of_finiteOfText? {text : Text} (written : finiteOfText? text = some n) : n.isFinite = true := by
  unfold finiteOfText? at written
  split at written
  · cases written
  · simp only at written
    split at written
    · next finite => exact Option.some.inj written ▸ finite
    · cases written

/-- What is no number stands for a finite one. -/
theorem isFinite_of_toNumber (number : toNumber type v = .ok n) (other : ∀ m, v ≠ .number m) : n.isFinite = true := by
  have small {k : Nat} (below : k < 2 ^ 53) : (Number.ofNat k).isFinite = true := by
    obtain ⟨fits,same⟩ := Number.ofNat_exact below
    rw [same]
    rfl
  cases v with
  | number m => exact absurd rfl (other m)
  | undefined =>
    cases number
    rfl
  | bool b =>
    rw [toNumber] at number
    rw [← Except.ok.inj number]
    cases b with
    | true =>
      rw [if_pos rfl]
      exact small (by decide)
    | false => rfl
  | text t =>
    simp only [toNumber] at number
    split at number
    · next m written =>
      obtain rfl := Except.ok.inj number
      exact isFinite_of_finiteOfText? written
    · cases number
  | _ => cases number

theorem isFinite_iff (number : toNumber type v = .ok n) : n.isFinite = true ↔ ∀ m, v = .number m → m.isFinite = true := by
  by_cases same : ∃ m, v = .number m
  · obtain ⟨m,rfl⟩ := same
    cases number
    simp
  · have other (m : Number) : v ≠ .number m := fun is => same ⟨m,is⟩
    simp [isFinite_of_toNumber number other,other]

/-- A type makes one of its own values, unless it lets an infinity or not-a-number pass. -/
theorem Gives.accepts_iff (gives : Gives type v w) : (TypeConstraint.named type).accepts w = true ↔ ¬ Overflows type v := by
  have through {type : TypeName} {v : Value} {n : Number} (strict : isStrict type = true) (number : toNumber type v = .ok n) :
      n.isFinite = true ↔ ¬ Overflows type v := by
    rw [isFinite_iff number,Overflows]
    simp [strict]
  cases gives with
  | int number =>
    rw [← through rfl number,← Number.isInteger_trunc]
    rfl
  | float number => exact through rfl number
  | _ => exact iff_of_true rfl fun overflows => Bool.noConfusion overflows.1

/-- What a type called with a value gives is of the type, just if it was not called with a number that is not finite while it
takes finite ones only. -/
theorem invoke_accepted_iff (run : Runs (invoke type [v] []) s (.ok w) t) :
    (TypeConstraint.named type).accepts w = true ↔ ¬ Overflows type v := (invoke_gives run).accepts_iff

/-- A number that is not finite passes as it is, and so is not of the type. -/
theorem Overflows.passes (overflows : Overflows type v) : Runs (invoke type [v] []) s (.ok v) s := by
  obtain ⟨strict,n,rfl,endless⟩ := overflows
  cases type with
  | int =>
    have done : convert .int (.number n) [] s.nextIdentity = .ok (.number n.trunc,s.nextIdentity) := rfl
    rw [Number.trunc_of_not_finite endless] at done
    exact StoreM.compute_run done
  | float => rfl
  | _ => cases strict

/-- A value that a type gives back. -/
inductive Stays : TypeName → Value → Prop where
  | int {n : Number} (whole : n.trunc = n) : Stays .int (.number n)
  | float (n : Number) : Stays .float (.number n)
  | number (n : Number) : Stays .number (.number n)
  | str (t : Text) : Stays .str (.text t)
  | bool (b : Bool) : Stays .bool (.bool b)
  | list (id : Identity) (items : List Value) : Stays .list (.list id items)
  | set {id : Identity} {items : List Value} (distinct : Distinct items) : Stays .set (.set id items)
  | dict (id : Identity) (pairs : Pairs) : Stays .dict (.mapping id pairs)

theorem Stays.run (stays : Stays type v) : ∃ w t, Runs (invoke type [v] []) s (.ok w) t ∧ w.bare = v.bare := by
  cases stays with
  | @int n whole =>
    have done : convert .int (.number n) [] s.nextIdentity = .ok (.number n.trunc,s.nextIdentity) := rfl
    exact ⟨_,_,StoreM.compute_run done,by rw [whole]⟩
  | @set id items distinct =>
    have done : convert .set (.set id items) [] s.nextIdentity = .ok (.set s.nextIdentity (members items),s.nextIdentity + 1) := rfl
    refine ⟨_,_,StoreM.compute_run done,?_⟩
    rw [members_of_distinct distinct]
    rfl
  | float n => exact ⟨.number n,s,rfl,rfl⟩
  | number n => exact ⟨.number n,s,rfl,rfl⟩
  | str t => exact ⟨.text t,s,rfl,rfl⟩
  | bool b => exact ⟨.bool b,s,rfl,rfl⟩
  | list id items => exact ⟨_,_,StoreM.compute_list_run,rfl⟩
  | dict id pairs => exact ⟨_,_,StoreM.compute_mapping_run,rfl⟩

theorem stays_of_accepts (accepted : (TypeConstraint.named type).accepts v = true)
    (sets : ∀ id items, v = .set id items → Distinct items) : Stays type v := by
  cases type <;> cases v <;> try cases accepted
  case int.number n =>
    obtain ⟨i,whole⟩ := Option.isSome_iff_exists.mp accepted
    exact .int (Number.trunc_whole whole)
  case float.number n => exact .float n
  case number.number n => exact .number n
  case str.text t => exact .str t
  case bool.bool b => exact .bool b
  case list.list id items => exact .list id items
  case set.set id items => exact .set (sets id items rfl)
  case dict.mapping id pairs => exact .dict id pairs

/-- What a type gives stays. -/
theorem Gives.stays (gives : Gives type v w) : Stays type w := by
  cases gives with
  | @int _ n _ => exact .int n.trunc_trunc
  | float => exact .float _
  | number => exact .number _
  | str => exact .str _
  | bool => exact .bool _
  | list => exact .list ..
  | set => exact .set (members_distinct _)
  | dict => exact .dict ..

/-- A type called with a value of its own gives the same content back. -/
theorem invoke_of_accepted (accepted : (TypeConstraint.named type).accepts v = true)
    (sets : ∀ id items, v = .set id items → Distinct items) :
    ∃ w t, Runs (invoke type [v] []) s (.ok w) t ∧ w.bare = v.bare := (stays_of_accepts accepted sets).run

/-- A type called with what it gave gives the same content again. -/
theorem invoke_twice (run : Runs (invoke type [v] []) s (.ok w) t) :
    ∃ w' t', Runs (invoke type [w] []) t (.ok w') t' ∧ w'.bare = w.bare := (invoke_gives run).stays.run

end Cast
end ConfTree
