import Mathlib.Data.List.InsertIdx
import ConfTree.Modifier.Factory
import ConfTree.Proofs.Renaming.Values

/-!
# Functions of values under other identities

Operators, slices, casts, sorting and the functions of the registry, each given renamed values: those that make no
collection give what they gave, renamed, and those that do give it with the identities that are free then
(`Compute.Moves`).
-/
namespace ConfTree

variable {f : Renaming} {v w : Value} {vs args : List Value} {keyword : Pairs} {α β γ δ : Type}

namespace Sequence

theorem iterate_renamed : iterate (v.renamed f) = List.map (Value.renamed f) <$> iterate v := by
  cases v with
  | text t => simp [iterate,Functor.map,Except.map]
  | mapping id pairs => simp [iterate,Functor.map,Except.map,Pairs.mapValues]
  | _ => simp [iterate,Functor.map,Except.map,Value.typeName]

theorem iterateAll_renamed : (vs.map (Value.renamed f)).mapM iterate = List.map (List.map (Value.renamed f)) <$> vs.mapM iterate := by
  induction vs with
  | nil => rfl
  | cons v rest ih => simp only [List.map_cons,List.mapM_cons,iterate_renamed,ih,bind_map_left,map_bind,map_pure]

@[simp] theorem position_renamed (length : Nat) : position (v.renamed f) length = position v length := by
  cases v <;> simp [position,Value.typeName]

@[simp] theorem bound_renamed (name : Text) : bound name (v.renamed f) = bound name v := by
  cases v <;> simp [bound,Value.typeName,Value.isMissing]

theorem itemAt_map {g : α → β} (items : List α) (hole : α) (place : Int) :
    itemAt (items.map g) (g hole) place = g (itemAt items hole place) := by
  rw [itemAt,itemAt]
  split
  · rfl
  · simp [Option.getD_map]

theorem sliceItems_renamed (start stop step : Value) :
    sliceItems (vs.map (Value.renamed f)) .undefined (start.renamed f) (stop.renamed f) (step.renamed f) =
      List.map (Value.renamed f) <$> sliceItems vs .undefined start stop step := by
  have item : itemAt (vs.map (Value.renamed f)) .undefined = Value.renamed f ∘ itemAt vs .undefined :=
    funext fun place => itemAt_map vs .undefined place
  simp only [sliceItems,bound_renamed,List.length_map,map_bind]
  refine bind_congr fun stride => ?_
  split
  · rfl
  · simp only [map_bind,map_pure,List.map_map,item]

theorem sliceTexts_renamed (ts : List Text) (start stop step : Value) :
    sliceItems ts .empty (start.renamed f) (stop.renamed f) (step.renamed f) = sliceItems ts .empty start stop step := by
  simp only [sliceItems,bound_renamed]

end Sequence

namespace Operators

@[simp] theorem operands_renamed (sign : Text) : operands sign (v.renamed f) (w.renamed f) = operands sign v w := by
  simp [operands]

theorem unary_renamed (op : UnaryOp) : unary op (v.renamed f) = Value.renamed f <$> unary op v := by
  cases op with
  | not => simp [unary,Functor.map,Except.map]
  | minus => cases v <;> simp [unary,Functor.map,Except.map,Value.typeName]
  | plus => cases v <;> simp [unary,Functor.map,Except.map,Value.typeName]

@[simp] theorem isMember_renamed : isMember (v.renamed f) (w.renamed f) = isMember v w := by
  cases w with
  | text t => cases v <;> simp [isMember,Value.typeName]
  | mapping id pairs => cases v <;> simp [isMember,Pairs.contains_mapValues]
  | _ => simp [isMember,Value.typeName]

@[simp] theorem order?_renamed (sign : Text) : order? sign (v.renamed f) (w.renamed f) = order? sign v w := by
  cases v with
  | number x => cases w <;> simp [order?,operands,Value.typeName]
  | text t => cases w <;> simp [order?,operands,Value.typeName]
  | _ => exact congrArg Except.error (operands_renamed sign)

@[simp] theorem compare_renamed (op : CompareOp) : compare op (v.renamed f) (w.renamed f) = compare op v w := by
  cases op <;> simp [compare]

end Operators

namespace Order

@[simp] theorem order_renamed : order (v.renamed f) (w.renamed f) = order v w := by
  simp [order]

theorem place_renamed (sorted : Array Value) (low high : Nat) :
    place (v.renamed f) (sorted.map (Value.renamed f)) low high = place v sorted low high := by
  have item (i : Nat) : (sorted.map (Value.renamed f))[i]?.getD .undefined = (sorted[i]?.getD .undefined).renamed f := by
    cases found : sorted[i]? <;> simp [found]
  induction low, high using place.induct with
  | case1 low high more mid below above =>
    rw [place,place,if_pos more,if_pos more]
    simp only [item,order_renamed]
    refine bind_congr fun order => ?_
    cases order with
    | lt => exact below
    | _ => exact above
  | case2 low high done => rw [place,place,if_neg done,if_neg done]

theorem insert_renamed (sorted : Array Value) :
    insert (sorted.map (Value.renamed f)) (v.renamed f) = Array.map (Value.renamed f) <$> insert sorted v := by
  simp only [insert,Array.size_map,place_renamed,map_bind,map_pure]
  refine bind_congr fun i => congrArg pure ?_
  by_cases inside : i ≤ sorted.size
  · apply Array.ext'
    simp [Array.insertIdxIfInBounds,inside,Array.toList_insertIdx,List.map_insertIdx]
  · simp [Array.insertIdxIfInBounds,inside]

theorem run_renamed (descending : Bool) (previous : Value) (earlier rest : List Value) :
    run descending (previous.renamed f) (earlier.map (Value.renamed f)) (rest.map (Value.renamed f)) =
      Prod.map (List.map (Value.renamed f)) (List.map (Value.renamed f)) <$> run descending previous earlier rest := by
  induction rest generalizing previous earlier with
  | nil => rfl
  | cons v rest ih =>
    rw [List.map_cons,run,run,order_renamed,map_bind]
    refine bind_congr fun order => ?_
    split
    · rfl
    · exact ih v (previous :: earlier)

theorem foldlM_insert_renamed (left : List Value) (sorted : Array Value) :
    (left.map (Value.renamed f)).foldlM insert (sorted.map (Value.renamed f)) =
      Array.map (Value.renamed f) <$> left.foldlM insert sorted := by
  induction left generalizing sorted with
  | nil => rfl
  | cons v rest ih =>
    rw [List.map_cons,List.foldlM_cons,List.foldlM_cons,insert_renamed,bind_map_left,map_bind]
    exact bind_congr ih

theorem sort_renamed : sort (vs.map (Value.renamed f)) = List.map (Value.renamed f) <$> sort vs := by
  match vs with
  | [] | [_] => rfl
  | first :: second :: rest =>
    have runs (descending : Bool) := run_renamed (f := f) descending second [first] rest
    simp only [List.map_cons,List.map_nil] at runs
    simp only [List.map_cons,sort,order_renamed,runs,map_bind,bind_map_left,Prod.map]
    refine bind_congr fun order => bind_congr fun (start,left) => ?_
    have start' : (if (order == .lt) = true then start.map (Value.renamed f) else (start.map (Value.renamed f)).reverse).toArray =
        (if (order == .lt) = true then start else start.reverse).toArray.map (Value.renamed f) := by
      split <;> simp
    rw [start',foldlM_insert_renamed]
    simp

theorem sorted_renamed : sorted (vs.map (Value.renamed f)) = List.map (Value.renamed f) <$> sorted vs := by
  have undefined : isUndefined ∘ Value.renamed f = isUndefined := by
    funext v
    cases v <;> rfl
  have defined : (fun v => !isUndefined v) ∘ Value.renamed f = fun v => !isUndefined v := by
    funext v
    exact congrArg not (congrFun undefined v)
  simp only [sorted,List.filter_map,undefined,defined,sort_renamed,bind_map_left,map_bind,map_pure,List.map_append]

theorem extreme_renamed (op : CompareOp) (vs : List Value) : extreme op (vs.map (Value.renamed f)) = Option.map (Value.renamed f) <$> extreme op vs := by
  cases vs with
  | nil => rfl
  | cons first rest =>
    have fold (best : Value) : (rest.map (Value.renamed f)).foldlM (fun best v => do
          return if ← Operators.compare op v best then v else best) (best.renamed f) =
        Value.renamed f <$> rest.foldlM (fun best v => do return if ← Operators.compare op v best then v else best) best := by
      induction rest generalizing best with
      | nil => rfl
      | cons v rest ih =>
        simp only [List.map_cons,List.foldlM_cons,Operators.compare_renamed,bind_assoc,pure_bind,map_bind]
        refine bind_congr fun passes => ?_
        cases passes with
        | true => exact ih v
        | false => exact ih best
    rw [List.map_cons,extreme,extreme,fold,Functor.map_map,Functor.map_map]
    rfl

end Order

/-! ## Computations -/

def Cause.renamed (f : Renaming) : Cause → Cause
  | .choice message choices => .choice message (choices.map (Value.renamed f))
  | cause => cause

def Failure.renamed (f : Renaming) : Failure → Failure
  | .cause c => .cause (c.renamed f)
  | .foreign message => .foreign message
  | .showing v issue => .showing (v.renamed f) issue

namespace Compute

/-- The second computation gives what the first one gives, renamed, if what that makes has the identities that are
free for the second one; and it fails as the first one does. -/
structure Moves (f : Renaming) (g : α → β) (c : Compute α) (d : Compute β) : Prop where
  value : ∀ {n k : Nat} {v : α}, c n = .ok (v,k) → n ≤ k ∧ ∀ m, f.Carries n k m → d m = .ok (g v,m + (k - n))
  failure : ∀ {n : Nat} {e : Failure} (m : Nat), c n = .error e → d m = .error (e.renamed f)

namespace Moves

variable {g : α → β} {h : γ → δ} {c : Compute α} {d : Compute β} {c' : α → Compute γ} {d' : β → Compute δ}

theorem pure (v : α) : Moves f g (Pure.pure v) (Pure.pure (g v)) where
  value {n k w} run := by
    cases run
    exact ⟨Nat.le_refl n,fun m _ => by rw [Nat.sub_self]; rfl⟩
  failure _ run := by cases run

/-- A value without identities. -/
theorem const {v : α} {w : β} (same : g v = w) : Moves f g (Pure.pure v) (Pure.pure w) := same ▸ pure v

theorem throw (e : Failure) : Moves f g (MonadExcept.throw e) (MonadExcept.throw (e.renamed f)) where
  value run := by cases run
  failure _ run := by
    cases run
    rfl

theorem refuse (issue : EvalIssue) : Moves f g (Compute.refuse issue) (Compute.refuse issue) := throw (.cause (.eval issue))

/-- Refused for its type, which a renaming keeps. -/
theorem refused (issue : Text → EvalIssue) (v : Value) :
    Moves f g (Compute.refuse (issue v.typeName)) (Compute.refuse (issue (v.renamed f).typeName)) := by
  rw [Value.typeName_renamed]
  exact refuse _

/-- What follows a result that needs no identity. -/
theorem after {r : Except EvalIssue α} {r' : Except EvalIssue β} (same : r' = g <$> r) (rest : ∀ v, Moves f h (c' v) (d' (g v))) :
    Moves f h (liftM r >>= c') (liftM r' >>= d') := by
  subst same
  cases r with
  | ok v => exact rest v
  | error issue => exact refuse issue

theorem attempt {r : Except Failure α} {r' : Except Failure β} (same : r' = (g <$> r).mapError (Failure.renamed f)) :
    Moves f g (liftM r) (liftM r') := by
  subst same
  cases r with
  | ok v => exact pure v
  | error e => exact throw e

theorem lift {r : Except EvalIssue α} {r' : Except EvalIssue β} (same : r' = g <$> r) : Moves f g (liftM r) (liftM r') := by
  subst same
  cases r with
  | ok v => exact pure v
  | error issue => exact refuse issue

/-- Something made with one identity of its own. -/
theorem make {make : Identity → α} {make' : Identity → β} (same : ∀ n, g (make n) = make' (f n)) :
    Moves f g (do return make (← fresh)) (do return make' (← fresh)) where
  value {n k v} run := by
    cases run
    refine ⟨Nat.le_succ n,fun m carries => ?_⟩
    rw [same,carries.first (Nat.lt_succ_self n),Nat.add_sub_cancel_left]
    rfl
  failure _ run := by cases run

theorem list (items : List Value) : Moves f (Value.renamed f) (list items) (list (items.map (Value.renamed f))) :=
  make fun n => by simp

theorem mapping (pairs : Pairs) : Moves f (Value.renamed f) (mapping pairs) (mapping (pairs.renamed f)) :=
  make fun n => by simp

theorem set (items : List Value) : Moves f (Value.renamed f) (set items) (set (items.map (Value.renamed f))) :=
  make fun n => by simp [Value.members_renamed]

/-- What follows and does not fail. -/
theorem bind (first : Moves f g c d) (rest : ∀ v, Moves f h (c' v) (d' (g v))) (sound : ∀ v n, ∃ p, c' v n = .ok p) :
    Moves f h (c >>= c') (d >>= d') where
  value {n k w} run := by
    have run : (c n >>= fun p => c' p.1 p.2) = .ok (w,k) := run
    cases ran : c n with
    | error e =>
      rw [ran] at run
      cases run
    | ok p =>
      obtain ⟨v,j⟩ := p
      rw [ran] at run
      obtain ⟨low,moved⟩ := first.value ran
      obtain ⟨high,moved'⟩ := (rest v).value run
      refine ⟨Nat.le_trans low high,fun m carries => ?_⟩
      show (d m >>= fun p => d' p.1 p.2) = _
      rw [moved m (carries.early high),← Renaming.next_after m low high]
      exact moved' _ (carries.later low)
  failure {n e} m run := by
    have run : (c n >>= fun p => c' p.1 p.2) = .error e := run
    show (d m >>= fun p => d' p.1 p.2) = _
    cases ran : c n with
    | error e' =>
      rw [ran] at run
      cases run
      rw [first.failure m ran]
      rfl
    | ok p =>
      obtain ⟨q,ended⟩ := sound p.1 p.2
      rw [ran] at run
      cases ended.symm.trans run

theorem map {k : α → γ} {k' : β → δ} (moves : Moves f g c d) (same : ∀ v, h (k v) = k' (g v)) : Moves f h (k <$> c) (k' <$> d) := by
  rw [map_eq_pure_bind,map_eq_pure_bind]
  refine moves.bind (fun v => ?_) fun v n => ⟨_,rfl⟩
  rw [← same]
  exact pure _

/-- What follows a result that needs no identity. -/
theorem tried {r : Except Failure α} {r' : Except Failure β} (same : r' = (g <$> r).mapError (Failure.renamed f))
    (rest : ∀ v, Moves f h (c' v) (d' (g v))) : Moves f h (liftM r >>= c') (liftM r' >>= d') := by
  subst same
  cases r with
  | ok v => exact rest v
  | error e => exact throw e

end Moves
end Compute

open Compute

namespace Sequence

/-- What a computation that makes nothing gives for renamed values. -/
theorem index?_renamed : index? (v.renamed f) (w.renamed f) =
    (index? v w).map fun r => (Value.renamed f <$> r).mapError (Failure.renamed f) := by
  cases v with
  | list id items =>
    simp only [Value.renamed,Value.renameAll_eq,index?,position_renamed,List.length_map,Option.map_some]
    cases position w items.length with
    | error issue => rfl
    | ok i => cases found : items[i]? <;> simp [found,Functor.map,Except.map,Except.mapError]
  | text t =>
    simp only [Value.renamed,index?,position_renamed,Option.map_some]
    cases position w t.length <;> rfl
  | mapping id pairs =>
    cases w with
    | text key =>
      simp only [Value.renamed,Value.renamePairs_eq,index?,Pairs.get?,Pairs.lookup_mapValues]
      cases List.lookup key pairs <;> rfl
    | _ => rfl
  | _ => rfl

theorem slice_moves (start stop step : Value) : Moves f (Value.renamed f) (slice v start stop step)
    (slice (v.renamed f) (start.renamed f) (stop.renamed f) (step.renamed f)) := by
  cases v with
  | text t =>
    refine .after (g := id) ?_ fun ts => .pure _
    rw [sliceTexts_renamed,id_map]
  | list id items =>
    simp only [Value.renamed,Value.renameAll_eq]
    exact .after (sliceItems_renamed start stop step) fun items => .list items
  | _ => exact .refused EvalIssue.notSliceable _

end Sequence

namespace Operators

theorem repeatItems_renamed (items : List Value) (times : Number) :
    repeatItems (items.map (Value.renamed f)) times = (repeatItems items times).map (List.map (Value.renamed f)) := by
  rw [repeatItems,repeatItems,Option.map_map]
  congr 1
  funext counts
  exact List.map_flatMap.symm

theorem repetition?_renamed (op : BinaryOp) : repetition? op (v.renamed f) (w.renamed f) =
    (repetition? op v w).map fun (items,times) => (items.map (Value.renamed f),times) := by
  cases op with
  | multiply =>
    cases v with
    | number n =>
      cases w with
      | list id items =>
        simp only [Value.renamed,Value.renameAll_eq,repetition?]
        split <;> rfl
      | _ => rfl
    | list id items =>
      cases w with
      | number n =>
        simp only [Value.renamed,Value.renameAll_eq,repetition?]
        split <;> rfl
      | _ => rfl
    | _ => rfl
  | _ => rfl

/-- Renamed operands are repeated if and only if the operands are. -/
theorem repeat?_renamed : (repeat? v w = none ∧ repeat? (v.renamed f) (w.renamed f) = none) ∨
    ∃ c d, repeat? v w = some c ∧ repeat? (v.renamed f) (w.renamed f) = some d ∧ Moves f (Value.renamed f) c d := by
  cases v with
  | text t =>
    cases w with
    | number n =>
      simp only [Value.renamed,repeat?]
      cases n.int? with
      | none => exact .inl ⟨rfl,rfl⟩
      | some i =>
        refine .inr ⟨_,_,rfl,rfl,Moves.map (g := id) (.attempt ?_) fun _ => rfl⟩
        unfold repeatText
        split
        · rfl
        · split <;> rfl
    | _ => exact .inl ⟨rfl,rfl⟩
  | _ => exact .inl ⟨rfl,rfl⟩

theorem add_moves : Moves f (Value.renamed f) (add v w) (add (v.renamed f) (w.renamed f)) := by
  have apart : Moves f (Value.renamed f) (Compute.refuse (operands "+" v w))
      (Compute.refuse (operands "+" (v.renamed f) (w.renamed f))) := operands_renamed (f := f) "+" ▸ .refuse _
  cases v with
  | number x =>
    cases w with
    | number y => exact .pure _
    | _ => exact apart
  | text t =>
    cases w with
    | text u => exact .pure _
    | _ => exact apart
  | list id xs =>
    cases w with
    | list other ys =>
      simp only [Value.renamed,Value.renameAll_eq,add,← List.map_append]
      exact .list _
    | _ => exact apart
  | _ => exact apart

/-- A product of numbers is no repetition. -/
theorem multiply_repeated {c : Compute Value} (found : (repeat? v w <|> repeat? w v) = some c) : multiply v w = c := by
  cases v with
  | number x =>
    cases w with
    | number y => cases found
    | _ => simp only [multiply,found]
  | _ => simp only [multiply,found]

theorem multiply_refused (apart : ¬ ∃ x y, v = .number x ∧ w = .number y) (left : repeat? v w = none) (right : repeat? w v = none) :
    multiply v w = Compute.refuse (operands "*" v w) := by
  have neither : (repeat? v w <|> repeat? w v) = none := by
    rw [left,right]
    rfl
  cases v with
  | number x =>
    cases w with
    | number y => exact absurd ⟨x,y,rfl,rfl⟩ apart
    | _ => simp only [multiply,neither]
  | _ => simp only [multiply,neither]

theorem multiply_moves : Moves f (Value.renamed f) (multiply v w) (multiply (v.renamed f) (w.renamed f)) := by
  by_cases numbers : ∃ x y, v = .number x ∧ w = .number y
  · obtain ⟨x,y,rfl,rfl⟩ := numbers
    exact .pure _
  have number {v : Value} {x : Number} (same : v.renamed f = .number x) : v = .number x := by
    cases v with
    | number y => exact same
    | _ => cases same
  have numbers' : ¬ ∃ x y, v.renamed f = .number x ∧ w.renamed f = .number y := by
    rintro ⟨x,y,first,second⟩
    exact numbers ⟨x,y,number first,number second⟩
  rcases repeat?_renamed (f := f) (v := v) (w := w) with ⟨left,left'⟩ | ⟨c,d,left,left',moves⟩
  · rcases repeat?_renamed (f := f) (v := w) (w := v) with ⟨right,right'⟩ | ⟨c,d,right,right',moves⟩
    · rw [multiply_refused numbers left right,multiply_refused numbers' left' right',operands_renamed]
      exact .refuse _
    · rw [multiply_repeated (c := c) (by rw [left,right]; rfl),multiply_repeated (c := d) (by rw [left',right']; rfl)]
      exact moves
  · rw [multiply_repeated (c := c) (by rw [left]; rfl),multiply_repeated (c := d) (by rw [left']; rfl)]
    exact moves

theorem numeric_moves (sign : Text) (operation : Number → Number → Except EvalIssue Number) :
    Moves f (Value.renamed f) (numeric sign operation v w) (numeric sign operation (v.renamed f) (w.renamed f)) := by
  have apart : Moves f (Value.renamed f) (Compute.refuse (operands sign v w))
      (Compute.refuse (operands sign (v.renamed f) (w.renamed f))) := operands_renamed (f := f) sign ▸ .refuse _
  cases v with
  | number x =>
    cases w with
    | number y => exact Moves.map (g := id) (.lift (id_map _).symm) fun _ => rfl
    | _ => exact apart
  | _ => exact apart

theorem binary_moves (op : BinaryOp) : Moves f (Value.renamed f) (binary op v w) (binary op (v.renamed f) (w.renamed f)) := by
  cases op with
  | add => exact add_moves
  | multiply => exact multiply_moves
  | _ => exact numeric_moves _ _

end Operators
/-! ## Casts -/

namespace Cast

theorem refused_renamed (type : TypeName) (v : Value) :
    (refused type (v.renamed f) : Except Failure α) = (refused type v).mapError (Failure.renamed f) := by
  simp [refused,Except.mapError,Failure.renamed]

theorem toNumber_renamed (type : TypeName) : toNumber type (v.renamed f) = (toNumber type v).mapError (Failure.renamed f) := by
  cases v with
  | text t =>
    simp only [Value.renamed,toNumber]
    cases finiteOfText? t with
    | some n => rfl
    | none => exact refused_renamed type (.text t)
  | undefined | number | bool => rfl
  | _ => exact refused_renamed type _

theorem mapError_map (k : α → β) (r : Except Failure α) :
    k <$> r.mapError (Failure.renamed f) = (k <$> r).mapError (Failure.renamed f) := by
  cases r <;> rfl

theorem toInteger_renamed : toInteger (v.renamed f) = (toInteger v).mapError (Failure.renamed f) := by
  have integer : Number.trunc <$> toNumber .int (v.renamed f) = (Number.trunc <$> toNumber .int v).mapError (Failure.renamed f) := by
    rw [toNumber_renamed,mapError_map]
  cases v with
  | text t =>
    show (if isIntegerText t then _ else refused .int ((Value.text t).renamed f)) = _
    rw [toInteger]
    split
    · exact integer
    · exact refused_renamed .int _
  | _ => exact integer

theorem parts_renamed : parts (v.renamed f) = List.map (Value.renamed f) <$> parts v := by
  have iterated := Sequence.iterate_renamed (f := f) (v := v)
  cases v with
  | undefined => rfl
  | _ => exact iterated

theorem insertPair_renamed (pairs : Pairs) :
    insertPair (pairs.renamed f) (v.renamed f) = (Pairs.renamed f <$> insertPair pairs v).mapError (Failure.renamed f) := by
  cases v with
  | list id items =>
    match items with
    | [] => rfl
    | first :: rest =>
      cases first with
      | text key =>
        match rest with
        | [w] => exact congrArg Except.ok Pairs.insert_mapValues
        | [] | _ :: _ :: _ => rfl
      | _ => rfl
  | _ => rfl

theorem toPairs_moves : Moves f (Pairs.renamed f) (toPairs v) (toPairs (v.renamed f)) := by
  have written : Moves f (Pairs.renamed f)
      (do (← liftM (parts v)).foldlM (fun pairs pair => liftM (insertPair pairs pair)) [])
      (do (← liftM (parts (v.renamed f))).foldlM (fun pairs pair => liftM (insertPair pairs pair)) []) := by
    refine .after parts_renamed fun items => ?_
    have fold (pairs : Pairs) : Moves f (Pairs.renamed f)
        (items.foldlM (fun pairs pair => (liftM (insertPair pairs pair) : Compute Pairs)) pairs)
        ((items.map (Value.renamed f)).foldlM (fun pairs pair => liftM (insertPair pairs pair)) (pairs.renamed f)) := by
      induction items generalizing pairs with
      | nil => exact .pure pairs
      | cons pair rest ih =>
        rw [List.map_cons,List.foldlM_cons,List.foldlM_cons]
        exact .tried (insertPair_renamed pairs) ih
    exact fold []
  cases v with
  | mapping id pairs =>
    simp only [Value.renamed,Value.renamePairs_eq]
    exact .pure pairs
  | _ => exact written

theorem convert_moves (type : TypeName) : Moves f (Value.renamed f) (convert type v keyword)
    (convert type (v.renamed f) (keyword.renamed f)) := by
  have number (type : TypeName) : Moves f id (liftM (toNumber type v)) (liftM (toNumber type (v.renamed f))) := by
    refine .attempt ?_
    rw [toNumber_renamed,id_map]
  cases type with
  | int =>
    refine Moves.map (g := id) (.attempt ?_) fun _ => rfl
    rw [toInteger_renamed,id_map]
  | float | number => exact (number _).map fun _ => rfl
  | bool =>
    simp only [convert,Value.isTruthy_renamed]
    exact .pure (Value.bool v.isTruthy)
  | list => exact .after parts_renamed fun items => .list items
  | set => exact .after parts_renamed fun items => .set items
  | dict =>
    refine toPairs_moves.bind (fun pairs => ?_) fun pairs n => ⟨_,rfl⟩
    rw [Pairs.insertAll_mapValues]
    exact .mapping _
  | str => exact .pure v

end Cast

/-! ## Functions of the registry and makers of modifiers -/

namespace Functions

@[simp] theorem arity_renamed (function : Builtin) (least most : Nat) :
    arity function (args.map (Value.renamed f)) least most = arity function args least most := by
  simp [arity]

theorem argument_renamed (args : List Value) (place : Nat) : argument (args.map (Value.renamed f)) place = (argument args place).renamed f := by
  cases found : args[place]? <;> simp [argument,found]

theorem keywordArgument_renamed (name : Text) : keywordArgument (keyword.renamed f) name = (keywordArgument keyword name).renamed f := by
  rw [keywordArgument,keywordArgument,Pairs.get?,Pairs.get?,Pairs.lookup_mapValues]
  cases List.lookup name keyword <;> rfl

theorem second_renamed (args : List Value) (keyword : Pairs) (name : Text) (default : Value) (same : default.renamed f = default) :
    second (args.map (Value.renamed f)) (keyword.renamed f) name default = (second args keyword name default).renamed f := by
  rw [second,second,argument_renamed,keywordArgument_renamed,Value.orElse_renamed]
  exact (congrArg _ same.symm).trans Value.orElse_renamed

@[simp] theorem expectNumber_renamed (function : Builtin) : expectNumber function (v.renamed f) = expectNumber function v := by
  cases v <;> simp [expectNumber,Value.typeName]

@[simp] theorem expectInteger_renamed (function : Builtin) : expectInteger function (v.renamed f) = expectInteger function v := by
  simp [expectInteger]

theorem expectMapping_renamed (function : Builtin) : expectMapping function (v.renamed f) = Pairs.renamed f <$> expectMapping function v := by
  cases v <;> simp [expectMapping,Value.typeName,Functor.map,Except.map]

theorem rangeBounds_renamed : rangeBounds (args.map (Value.renamed f)) = rangeBounds args := by
  simp only [rangeBounds,arity_renamed,argument_renamed,expectInteger_renamed,List.length_map]

theorem sum_renamed : sum (args.map (Value.renamed f)) (keyword.renamed f) = sum args keyword := by
  have start := second_renamed (f := f) args keyword "start" (.number .zero) rfl
  simp only [sum,arity_renamed,argument_renamed,start,expectNumber_renamed,Sequence.iterate_renamed,bind_map_left,List.foldlM_map]

theorem round_renamed : round (args.map (Value.renamed f)) (keyword.renamed f) = round args keyword := by
  have places := second_renamed (f := f) args keyword "ndigits" (.number .zero) rfl
  simp only [round,arity_renamed,argument_renamed,places,expectNumber_renamed,expectInteger_renamed]

theorem onNumber_renamed (function : Builtin) (operation : Number → Number) :
    onNumber function operation (args.map (Value.renamed f)) = Value.renamed f <$> onNumber function operation args := by
  simp only [onNumber,arity_renamed,argument_renamed,expectNumber_renamed,map_bind,map_pure,Value.renamed]

theorem len_renamed : len (args.map (Value.renamed f)) = Value.renamed f <$> len args := by
  simp only [len,arity_renamed,argument_renamed,map_bind]
  refine bind_congr fun _ => ?_
  generalize argument args 0 = v
  cases v <;> simp [Value.typeName,Value.ofNat] <;> rfl

theorem extreme_renamed (function : Builtin) (op : CompareOp) :
    extreme function op (args.map (Value.renamed f)) = Value.renamed f <$> extreme function op args := by
  match args with
  | [v] =>
    simp only [List.map_cons,List.map_nil,extreme,Sequence.iterate_renamed,bind_map_left,map_bind,Order.extreme_renamed]
    refine bind_congr fun vs => bind_congr fun best => ?_
    cases best <;> rfl
  | [] => rfl
  | first :: second :: rest =>
    have candidates := Order.extreme_renamed (f := f) op (first :: second :: rest)
    simp only [List.map_cons] at candidates
    simp only [List.map_cons,extreme,candidates,bind_map_left,map_bind,pure_bind]
    refine bind_congr fun best => ?_
    cases best <;> rfl

theorem zipped_renamed (lists : List (List Value)) :
    zipped (lists.map (List.map (Value.renamed f))) = (zipped lists).map (List.map (Value.renamed f)) := by
  have item (found : Option Value) : (found.map (Value.renamed f)).getD .undefined = (found.getD .undefined).renamed f := by
    cases found <;> rfl
  cases lists with
  | nil => rfl
  | cons first rest => simp [zipped,List.foldl_map,Function.comp_def,item]

theorem rows_moves (lists : List (List Value)) :
    Moves f (Value.renamed f) (rows lists) (rows (lists.map (List.map (Value.renamed f)))) := by
  have ends (lists : List (List Value)) (n : Identity) : ∃ p, lists.mapM Compute.list n = .ok p := by
    induction lists generalizing n with
    | nil => exact ⟨_,rfl⟩
    | cons items rest ih =>
      obtain ⟨p,ended⟩ := ih (n + 1)
      rw [List.mapM_cons]
      refine ⟨(.list n items :: p.1,p.2),?_⟩
      show (rest.mapM Compute.list (n + 1) >>= fun p => Except.ok (Value.list n items :: p.1,p.2)) = _
      rw [ended]
      rfl
  have each : Moves f (List.map (Value.renamed f)) (lists.mapM Compute.list)
      ((lists.map (List.map (Value.renamed f))).mapM Compute.list) := by
    induction lists with
    | nil => exact .pure []
    | cons items rest ih =>
      rw [List.map_cons,List.mapM_cons,List.mapM_cons]
      refine (Moves.list items).bind (fun v => ih.bind (fun vs => .pure (v :: vs)) fun _ _ => ⟨_,rfl⟩) fun v n => ?_
      obtain ⟨p,ended⟩ := ends rest n
      refine ⟨(v :: p.1,p.2),?_⟩
      show (rest.mapM Compute.list n >>= fun p => Except.ok (v :: p.1,p.2)) = _
      rw [ended]
      rfl
  exact each.bind (fun vs => .list vs) fun _ _ => ⟨_,rfl⟩

theorem numbered_renamed (start : Number) : numbered start (vs.map (Value.renamed f)) =
    (numbered start vs).map (List.map (Value.renamed f)) := by
  simp [numbered,List.mapIdx_eq_zipIdx_map,List.zipIdx_map]

theorem enumerate_renamed : enumerate (args.map (Value.renamed f)) (keyword.renamed f) =
    List.map (List.map (Value.renamed f)) <$> enumerate args keyword := by
  have start := second_renamed (f := f) args keyword "start" (.number .zero) rfl
  simp only [enumerate,arity_renamed,argument_renamed,start,expectInteger_renamed,Sequence.iterate_renamed,bind_map_left,map_bind,
    map_pure,numbered_renamed]

theorem sorted_renamed : sorted (args.map (Value.renamed f)) (keyword.renamed f) = List.map (Value.renamed f) <$> sorted args keyword := by
  simp only [sorted,arity_renamed,argument_renamed,keywordArgument_renamed,Value.isTruthy_renamed,Sequence.iterate_renamed,
    bind_map_left,map_bind,map_pure,Order.sorted_renamed]
  refine bind_congr fun _ => bind_congr fun vs => bind_congr fun ascending => ?_
  split <;> simp

theorem onlyParts_renamed (function : Builtin) :
    onlyParts function (args.map (Value.renamed f)) = List.map (Value.renamed f) <$> onlyParts function args := by
  simp only [onlyParts,arity_renamed,argument_renamed,Sequence.iterate_renamed,map_bind]

theorem onlyPairs_renamed (function : Builtin) :
    onlyPairs function (args.map (Value.renamed f)) = Pairs.renamed f <$> onlyPairs function args := by
  simp only [onlyPairs,arity_renamed,argument_renamed,expectMapping_renamed,map_bind]

theorem valueOf_moves (host : Host) (name : Text) : Moves f (Value.renamed f) (host.valueOf name) (host.valueOf name) := by
  unfold Host.valueOf
  cases host.environment.lookup name with
  | some t => exact .pure (Value.text t)
  | none =>
    cases Host.inherited? name with
    | some display =>
      refine .const ?_
      simp
    | none =>
      dsimp only
      split
      · exact .mapping []
      · exact .pure Value.undefined

theorem env_moves (host : Host) : Moves f (Value.renamed f) (env host args keyword)
    (env host (args.map (Value.renamed f)) (keyword.renamed f)) := by
  have fallback := second_renamed (f := f) args keyword "default" .null rfl
  refine .after (g := id) (by rw [arity_renamed,id_map]) fun _ => ?_
  rw [argument_renamed,fallback]
  generalize argument args 0 = v
  cases v with
  | text name =>
    refine (valueOf_moves host name).bind (fun v => ?_) fun v n => ⟨_,rfl⟩
    rw [Value.orElse_renamed]
    exact .pure _
  | _ => exact .refused EvalIssue.variableType _

theorem cwd_renamed (host : Host) : cwd host (args.map (Value.renamed f)) = Value.renamed f <$> cwd host args := by
  simp only [cwd,arity_renamed,map_bind,map_pure,Value.renamed]

end Functions

namespace Factory

open Functions

@[simp] theorem arity_renamed (name : Text) (least most : Nat) :
    arity name (args.map (Value.renamed f)) least most = arity name args least most := by
  simp [arity]

@[simp] theorem expectText_renamed (name : Text) : expectText name (v.renamed f) = expectText name v := by
  cases v <;> simp [expectText,Value.typeName]

theorem makeRename_renamed : makeRename (args.map (Value.renamed f)) = Modifier.renamed f <$> makeRename args := by
  simp only [makeRename,arity_renamed,argument_renamed,expectText_renamed,map_bind,map_pure,Modifier.renamed]

theorem makeCast_renamed : makeCast (args.map (Value.renamed f)) = Modifier.renamed f <$> makeCast args := by
  simp only [makeCast,arity_renamed,argument_renamed,map_bind]
  refine bind_congr fun _ => ?_
  generalize argument args 0 = v
  cases v with
  | object o =>
    simp only [Value.renamed,Object.isInvocable_renamed,Value.typeName,Object.typeName_renamed]
    split <;> rfl
  | _ => rfl

theorem makeExtends_renamed : makeExtends (args.map (Value.renamed f)) = Modifier.renamed f <$> makeExtends args := by
  simp only [makeExtends,arity_renamed,argument_renamed,map_bind]
  refine bind_congr fun _ => ?_
  generalize argument args 0 = v
  cases v with
  | object o => cases o <;> rfl
  | _ => rfl

theorem fallback_renamed : fallback (v.renamed f) = (fallback v).mapError (Failure.renamed f) := by
  cases v <;> rfl

theorem chosenFrom_renamed : chosenFrom (args.map (Value.renamed f)) = (chosenFrom args).map (Value.renamed f) := by
  match args with
  | [v] => cases v <;> simp [chosenFrom]
  | [] => rfl
  | first :: second :: rest => cases first <;> rfl

theorem makeChoices_options (id : Identity) (options : Pairs) (rest : List Value) :
    makeChoices (.mapping id options :: rest) keyword =
      if 2 < rest.length + 1 then .error (.cause (.eval (.tooManyOptions (rest.length + 1))))
      else .options options <$> fallback ((argument (.mapping id options :: rest) 1).orElse (keywordArgument keyword "default")) := by
  simp only [makeChoices,List.length_cons]
  split
  · rfl
  · cases fallback ((argument (.mapping id options :: rest) 1).orElse (keywordArgument keyword "default")) <;> rfl

theorem makeChoices_values (apart : ∀ id options rest, args ≠ .mapping id options :: rest) : makeChoices args keyword =
    if (chosenFrom args).isEmpty then .error (.cause (.eval .noOptions)) else .ok (.values (chosenFrom args)) := by
  unfold makeChoices
  split
  · next id options rest => exact absurd rfl (apart id options rest)
  · dsimp only
    split <;> rfl

theorem makeChoices_renamed : makeChoices (args.map (Value.renamed f)) (keyword.renamed f) =
    (Modifier.renamed f <$> makeChoices args keyword).mapError (Failure.renamed f) := by
  by_cases options : ∃ id options rest, args = .mapping id options :: rest
  · obtain ⟨id,options,rest,rfl⟩ := options
    have second := argument_renamed (f := f) (.mapping id options :: rest) 1
    simp only [List.map_cons,Value.renamed,Value.renamePairs_eq] at second
    simp only [List.map_cons,Value.renamed,Value.renamePairs_eq,makeChoices_options,List.length_map,second,keywordArgument_renamed,
      Value.orElse_renamed,fallback_renamed]
    split
    · rfl
    · cases fallback ((argument (.mapping id options :: rest) 1).orElse (keywordArgument keyword "default")) <;>
        simp [Functor.map,Except.map,Except.mapError]
  · have apart (id pairs rest) : args ≠ .mapping id pairs :: rest := fun same => options ⟨id,pairs,rest,same⟩
    have apart' (id options rest) : args.map (Value.renamed f) ≠ .mapping id options :: rest := by
      intro same
      obtain ⟨v,others,rfl,first,-⟩ := List.map_eq_cons_iff.mp same
      cases v with
      | mapping id pairs => exact apart id pairs others rfl
      | _ => cases first
    rw [makeChoices_values apart,makeChoices_values apart',chosenFrom_renamed,List.isEmpty_map]
    split
    · rfl
    · simp [Functor.map,Except.map,Except.mapError]

theorem loadVariables_renamed : loadVariables (v.renamed f) = Option.map (Pairs.renamed f) <$> loadVariables v := by
  cases v <;> simp [loadVariables,Value.typeName,Functor.map,Except.map]

theorem makeLoad_renamed : makeLoad (args.map (Value.renamed f)) (keyword.renamed f) = Modifier.renamed f <$> makeLoad args keyword := by
  simp only [makeLoad,arity_renamed,argument_renamed,keywordArgument_renamed,loadVariables_renamed,bind_map_left,map_bind,
    Value.isMissing_renamed,← apply_ite (Value.renamed f)]
  refine bind_congr fun _ => bind_congr fun vars => ?_
  generalize (if (argument args 0).isMissing = true then keywordArgument keyword "group" else argument args 0) = group
  have named : (do return .load (some (← expectText "load" (group.renamed f))) (vars.map (Pairs.renamed f)) : Except EvalIssue Modifier) =
      Modifier.renamed f <$> do return .load (some (← expectText "load" group)) vars := by
    simp only [expectText_renamed,map_bind,map_pure,Modifier.renamed,Value.renameVars_eq]
  cases group with
  | undefined => simp
  | _ => exact named

/-- What a maker of modifiers makes from renamed arguments. -/
theorem make_moves (factory : Factory) : Moves f (Modifier.renamed f) (make factory args keyword)
    (make factory (args.map (Value.renamed f)) (keyword.renamed f)) := by
  match factory with
  | .rename => exact .lift makeRename_renamed
  | .choices => exact .attempt makeChoices_renamed
  | .extends => exact .lift makeExtends_renamed
  | .cast => exact .lift makeCast_renamed

theorem asValue_moves (m : Modifier) : Moves f (Value.renamed f) (asValue m) (asValue (m.renamed f)) := .make fun _ => rfl

end Factory
end ConfTree
