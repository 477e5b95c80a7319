import ConfTree.Eval.Operators
import ConfTree.Proofs.Pairs

/-!
# Values under other identities

A renaming gives what has an identity another one. What the operators, comparisons, sequences and orders of the
language make of values depends on identities only as far as these tell values apart, so each of them commutes
with any renaming.
-/
namespace ConfTree

/-- Other identities for what has one. Raw content has the identity zero, which stays. -/
structure Renaming where
  map : Nat → Nat
  injective : Function.Injective map
  zero : map 0 = 0

namespace Renaming

instance : CoeFun Renaming fun _ => Nat → Nat := ⟨map⟩

attribute [simp] zero

@[simp] theorem beq (f : Renaming) (a b : Nat) : (f a == f b) = (a == b) := by
  by_cases same : a = b
  · simp [same]
  · simp [same,f.injective.ne same]

/-- The identities from `n` up to `k` become those from `m` on. -/
def Carries (f : Renaming) (n k m : Nat) : Prop := ∀ i, n ≤ i → i < k → f i + n = m + i

variable {f : Renaming} {n j k m : Nat}

theorem Carries.early (carries : f.Carries n k m) (within : j ≤ k) : f.Carries n j m :=
  fun i from_n below => carries i from_n (Nat.lt_of_lt_of_le below within)

theorem Carries.later (carries : f.Carries n k m) (low : n ≤ j) : f.Carries j k (m + (j - n)) := by
  intro i from_j below
  have here := carries i (Nat.le_trans low from_j) below
  omega

theorem Carries.first (carries : f.Carries n k m) (some : n < k) : f n = m := by
  have here := carries n (Nat.le_refl n) some
  omega

/-- How far two steps lead, one after the other. -/
theorem next_after (m : Nat) (low : n ≤ j) (high : j ≤ k) : m + (j - n) + (k - j) = m + (k - n) := by omega

end Renaming

/-! ## Renamed values -/

mutual

/-- A value with other identities. -/
def Value.renamed (f : Renaming) : Value → Value
  | .null => .null
  | .undefined => .undefined
  | .bool b => .bool b
  | .number n => .number n
  | .text t => .text t
  | .list id items => .list (f id) (Value.renameAll f items)
  | .mapping id pairs => .mapping (f id) (Value.renamePairs f pairs)
  | .set id items => .set (f id) (Value.renameAll f items)
  | .object o => .object (o.renamed f)

/-- An object with other identities; a node keeps its own. -/
def Object.renamed (f : Renaming) : Object → Object
  | .node id kind => .node id kind
  | .function id callable => .function (f id) callable
  | .type name => .type name
  | .modifier id m => .modifier (f id) (m.renamed f)
  | .factory factory => .factory factory
  | .foreign id o => .foreign (f id) o

def Modifier.renamed (f : Renaming) : Modifier → Modifier
  | .visibility hide => .visibility hide
  | .required => .required
  | .noop => .noop
  | .promote => .promote
  | .fuse => .fuse
  | .rename name => .rename name
  | .options options fallback => .options (Value.renamePairs f options) fallback
  | .values values => .values (Value.renameAll f values)
  | .extends base => .extends base
  | .load group vars => .load group (Value.renameVars f vars)
  | .cast function => .cast (function.renamed f)
  | .custom kind name => .custom kind name

def Value.renameAll (f : Renaming) : List Value → List Value
  | [] => []
  | v :: rest => v.renamed f :: Value.renameAll f rest

def Value.renamePairs (f : Renaming) : List (Text × Value) → List (Text × Value)
  | [] => []
  | (key,v) :: rest => (key,v.renamed f) :: Value.renamePairs f rest

def Value.renameVars (f : Renaming) : Option (List (Text × Value)) → Option (List (Text × Value))
  | none => none
  | some vars => some (Value.renamePairs f vars)

end

attribute [simp] Value.renamed Object.renamed Modifier.renamed

variable {f : Renaming} {v w : Value} {vs : List Value} {o : Object} {m : Modifier} {pairs : Pairs}

/-- Pairs whose values have other identities. -/
abbrev Pairs.renamed (f : Renaming) (pairs : Pairs) : Pairs := Pairs.mapValues (Value.renamed f) pairs

@[simp] theorem Value.renameAll_eq : Value.renameAll f vs = vs.map (Value.renamed f) := by
  induction vs with
  | nil => rfl
  | cons v rest ih => rw [Value.renameAll,List.map_cons,ih]

@[simp] theorem Value.renamePairs_eq : Value.renamePairs f pairs = pairs.renamed f := by
  induction pairs with
  | nil => rfl
  | cons p rest ih =>
    rw [Value.renamePairs,ih]
    rfl

@[simp] theorem Value.renameVars_eq {vars : Option Pairs} : Value.renameVars f vars = vars.map (Pairs.renamed f) := by
  cases vars with
  | none => rfl
  | some vars => simp [Value.renameVars]

/-! ## What does not change -/

namespace Object

@[simp] theorem typeName_renamed : (o.renamed f).typeName = o.typeName := by
  cases o <;> rfl

@[simp] theorem isInvocable_renamed : (o.renamed f).isInvocable = o.isInvocable := by
  cases o with
  | modifier id m => cases m <;> rfl
  | _ => rfl

@[simp] theorem isSubscriptable_renamed : (o.renamed f).isSubscriptable = o.isSubscriptable := by
  cases o <;> rfl

@[simp] theorem same_renamed {p : Object} : (o.renamed f).same (p.renamed f) = o.same p := by
  cases o <;> cases p <;> simp [same]

end Object

@[simp] theorem Modifier.kind_renamed : (m.renamed f).kind = m.kind := by
  cases m <;> rfl

namespace Value

@[simp] theorem typeName_renamed : (v.renamed f).typeName = v.typeName := by
  cases v <;> simp [typeName]

@[simp] theorem isMissing_renamed : (v.renamed f).isMissing = v.isMissing := by
  cases v <;> rfl

@[simp] theorem isTruthy_renamed : (v.renamed f).isTruthy = v.isTruthy := by
  cases v <;> simp [isTruthy]

theorem orElse_renamed : (v.renamed f).orElse (w.renamed f) = (v.orElse w).renamed f := by
  rw [orElse,orElse,isMissing_renamed]
  split <;> rfl

@[simp] theorem identical_renamed : identical (v.renamed f) (w.renamed f) = identical v w := by
  cases v <;> cases w <;> simp [identical]

@[simp] theorem sameMember_renamed : sameMember (v.renamed f) (w.renamed f) = sameMember v w := by
  cases v <;> cases w <;> simp [sameMember,identical]

/-! ## Equality -/

mutual

theorem equalFrom_renamed (reversed : Bool) (v w : Value) : equalFrom reversed (v.renamed f) (w.renamed f) = equalFrom reversed v w := by
  cases v with
  | list i xs =>
    have items := equalItems_renamed reversed xs
    cases w <;> simp [equalFrom,items]
  | set i xs =>
    have met := allMet_renamed xs
    have any := anyEqual_renamed xs
    cases w <;> simp [equalFrom,met,any,List.all_map,Function.comp_def]
  | mapping i ps =>
    have pairs := equalPairs_renamed reversed ps
    cases w <;> simp [equalFrom,pairs]
  | _ => cases w <;> simp [equalFrom,identical]
termination_by structural v

theorem equalItems_renamed (reversed : Bool) (xs ys : List Value) :
    equalItems reversed (xs.map (renamed f)) (ys.map (renamed f)) = equalItems reversed xs ys := by
  cases xs with
  | nil => cases ys <;> rfl
  | cons x rest =>
    cases ys with
    | nil => rfl
    | cons y others =>
      rw [List.map_cons,List.map_cons,equalItems,equalItems,equalFrom_renamed reversed x y,equalItems_renamed reversed rest others]
termination_by structural xs

theorem allMet_renamed (xs ys : List Value) : allMet (xs.map (renamed f)) (ys.map (renamed f)) = allMet xs ys := by
  cases xs with
  | nil => rfl
  | cons x rest =>
    have first (y : Value) := equalFrom_renamed true x y
    rw [List.map_cons,allMet,allMet,allMet_renamed rest ys,List.any_map]
    simp only [Function.comp_def,first]
termination_by structural xs

theorem anyEqual_renamed (xs : List Value) (w : Value) : anyEqual (xs.map (renamed f)) (w.renamed f) = anyEqual xs w := by
  cases xs with
  | nil => rfl
  | cons x rest => rw [List.map_cons,anyEqual,anyEqual,equalFrom_renamed false x w,anyEqual_renamed rest w]
termination_by structural xs

theorem equalPairs_renamed (reversed : Bool) (ps qs : Pairs) :
    equalPairs reversed (ps.renamed f) (qs.renamed f) = equalPairs reversed ps qs := by
  cases ps with
  | nil => rfl
  | cons p rest =>
    obtain ⟨key,x⟩ := p
    have first (y : Value) := equalFrom_renamed reversed x y
    have later : equalPairs reversed (Pairs.renamed f rest) (Pairs.renamed f qs) = equalPairs reversed rest qs :=
      equalPairs_renamed reversed rest qs
    show equalPairs reversed ((key,x.renamed f) :: Pairs.renamed f rest) _ = _
    rw [equalPairs,equalPairs,later,Pairs.get?,Pairs.get?,Pairs.lookup_mapValues]
    cases List.lookup key qs with
    | none => rfl
    | some y => simp only [Option.map_some,first]
termination_by structural ps

end

@[simp] theorem equal_renamed : equal (v.renamed f) (w.renamed f) = equal v w := equalFrom_renamed false v w

@[simp] theorem isIn_renamed : isIn (vs.map (renamed f)) (w.renamed f) = isIn vs w := by
  simp [isIn,List.any_map,Function.comp_def]

theorem asMember_renamed : asMember (v.renamed f) = (asMember v).renamed f := by
  cases v with
  | number n => cases n <;> rfl
  | _ => simp [asMember]

theorem addMember_renamed : addMember (vs.map (renamed f)) (v.renamed f) = (addMember vs v).map (renamed f) := by
  rw [addMember,addMember,List.any_map]
  simp only [Function.comp_def,sameMember_renamed]
  split
  · rfl
  · simp [asMember_renamed]

theorem members_renamed : members (vs.map (renamed f)) = (members vs).map (renamed f) := by
  have fold (before : List Value) :
      (vs.map (renamed f)).foldl addMember (before.map (renamed f)) = (vs.foldl addMember before).map (renamed f) := by
    induction vs generalizing before with
    | nil => rfl
    | cons v rest ih =>
      rw [List.map_cons,List.foldl_cons,List.foldl_cons,addMember_renamed]
      exact ih _
  exact fold []

end Value
end ConfTree
