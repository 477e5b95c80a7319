import Mathlib.Data.List.Forall2
import Mathlib.Order.Monotone.Basic
import ConfTree.Proofs.Renaming.Known

/-!
# Comprehensions

A set comprehension gives the set of what the list comprehension gives, and a mapping comprehension gives the mapping of
the pairs that a list comprehension lists (`comprehensions_agree`).

For mappings the two evaluations part: the one that lists makes a list of each pair, so whatever is made after it has
another identity, and a key that is no text is found only when the list is complete. So the evaluations are compared in a
store and in one renamed so that there is room for these lists (`Listed`).
-/
namespace ConfTree

open StoreM

variable {env : Env} {v w : Value} {s t u : Store}

/-- A pair cannot be written from the value. -/
def Unwritable (v : Value) : Prop := ∀ before after, Cast.insertPair before v ≠ .ok after

/-- The row is a list of the pair, renamed. -/
def Row (f : Renaming) (pair row : Text × Value) : Prop := ∃ id, row.2 = .list id [.text pair.1,pair.2.renamed f]

theorem unwritable_list {id : Identity} (apart : ∀ key, v ≠ .text key) : Unwritable (.list id [v,w]) := by
  intro before after written
  cases v with
  | text key => exact absurd rfl (apart key)
  | _ => cases written

/-- Of rows that are the lists of pairs, a mapping of these pairs is made. -/
theorem insertPair_rows {f : Renaming} {pairs rows : Pairs} (listed : List.Forall₂ (Row f) pairs rows) (before : Pairs) :
    (rows.map Prod.snd).foldlM (fun before row => Cast.insertPair before row) before =
      .ok (Pairs.insertAll before (Pairs.renamed f pairs)) := by
  induction listed generalizing before with
  | nil => rfl
  | cons row _ ih =>
    obtain ⟨id,same⟩ := row
    rw [List.map_cons,List.foldlM_cons,same]
    exact ih _

/-- Of rows that are not all lists of pairs, no mapping is made. -/
theorem insertPair_unwritable {rows : Pairs} {row : Text × Value} (among : row ∈ rows) (unwritable : Unwritable row.2) (before after : Pairs) :
    (rows.map Prod.snd).foldlM (fun before row => Cast.insertPair before row) before ≠ .ok after := by
  induction rows generalizing before with
  | nil => cases among
  | cons first rest ih =>
    intro written
    rw [List.map_cons,List.foldlM_cons] at written
    obtain ⟨next,here,there⟩ := ok_of_bind written
    rcases List.mem_cons.mp among with rfl | later
    · exact unwritable before next here
    · exact ih later next there

/-- What a list is converted to as a mapping. -/
theorem convert_dict (id : Identity) (items : List Value) (n : Identity) : Cast.convert .dict (.list id items) [] n =
    (fun pairs => (.mapping n pairs,n + 1)) <$> items.foldlM (fun before row => Cast.insertPair before row) [] := by
  have lifted (before : Pairs) :
      items.foldlM (fun before row => (liftM (Cast.insertPair before row) : Compute Pairs)) before n =
        (fun after => (after,n)) <$> items.foldlM (fun before row => Cast.insertPair before row) before := by
    induction items generalizing before with
    | nil => rfl
    | cons row rest ih =>
      rw [List.foldlM_cons,List.foldlM_cons,map_bind]
      cases Cast.insertPair before row with
      | error e => rfl
      | ok after => exact ih after
  show (items.foldlM (fun before row => (liftM (Cast.insertPair before row) : Compute Pairs)) [] n >>= fun p =>
    Except.ok (Value.mapping p.2 p.1,p.2 + 1)) = _
  rw [lifted]
  cases items.foldlM (fun before row => Cast.insertPair before row) [] <;> rfl

/-! ## Evaluations that list pairs -/

/-- The identities from `n` up to `k` become those from `m` on, moved on further by as much as `extra` says. -/
def Renaming.Spreads (f : Renaming) (extra : Nat → Nat) (n k m : Nat) : Prop := ∀ i, n ≤ i → i < k → f i + n = m + i + extra i

namespace Renaming.Spreads

variable {f : Renaming} {extra more : Nat → Nat} {n j k m : Nat}

/-- Where nothing is made besides, identities are carried over. -/
theorem carries (spreads : f.Spreads extra n k m) (none : ∀ i < k, extra i = 0) : f.Carries n k m := by
  intro i from_n below
  have here := spreads i from_n below
  rwa [none i below] at here

theorem early (spreads : f.Spreads extra n k m) (within : j ≤ k) : f.Spreads extra n j m :=
  fun i from_n below => spreads i from_n (Nat.lt_of_lt_of_le below within)

theorem later (spreads : f.Spreads extra n k m) (low : n ≤ j) : f.Spreads extra j k (m + (j - n)) := by
  intro i from_j below
  have here := spreads i (Nat.le_trans low from_j) below
  omega

/-- What was made before anything is moved on by `more`. -/
theorem front (spreads : f.Spreads (fun i => extra i + more i) n k m) (within : j ≤ k) (none : ∀ i < j, more i = 0) :
    f.Spreads extra n j m := by
  intro i from_n below
  have here : f i + n = m + i + (extra i + more i) := spreads i from_n (Nat.lt_of_lt_of_le below within)
  rwa [none i below] at here

/-- What is made after all was moved on that `extra` moves on. -/
theorem back {count : Nat} (spreads : f.Spreads (fun i => extra i + more i) n k m) (low : n ≤ j) (all : ∀ i, j ≤ i → extra i = count) :
    f.Spreads more j k (m + (j - n) + count) := by
  intro i from_j below
  have here : f i + n = m + i + (extra i + more i) := spreads i (Nat.le_trans low from_j) below
  rw [all i from_j] at here
  omega

end Renaming.Spreads

/-- In a store renamed so that there is room for it, the second action makes a list of each pair that the first one
emits. Where the first one comes to no pairs, it does not end well either, or one of its rows is no list of a pair. -/
structure Listed.From (env : Env) (a : StoreM Pairs) (b : Renaming → StoreM Pairs) (s : Store) (extra : Nat → Nat) : Prop where
  monotone : Monotone extra
  early : ∀ i < s.nextIdentity, extra i = 0
  ok : ∀ {pairs t}, Runs a s (.ok pairs) t → s.nextIdentity ≤ t.nextIdentity ∧ (∀ i, t.nextIdentity ≤ i → extra i = pairs.length) ∧
    ∀ (f : Renaming) (m : Nat), env.Moves f env → f.Spreads extra s.nextIdentity t.nextIdentity m →
      ∃ rows, List.Forall₂ (Row f) pairs rows ∧
        Runs (b f) (s.renamed f m) (.ok rows) (t.renamed f (m + (t.nextIdentity - s.nextIdentity) + pairs.length))
  failed : (∀ pairs t, ¬ Runs a s (.ok pairs) t) → ∀ (f : Renaming) (m : Nat), env.Moves f env →
    (∀ k, f.Spreads extra s.nextIdentity k m) → ∀ rows u, Runs (b f) (s.renamed f m) (.ok rows) u → ∃ row ∈ rows, Unwritable row.2

/-- From each store the second action lists what the first one emits, if there is room for the lists. -/
def Listed (env : Env) (a : StoreM Pairs) (b : Renaming → StoreM Pairs) : Prop := ∀ s, ∃ extra, Listed.From env a b s extra

namespace Listed

variable {α β : Type} {a a' : StoreM Pairs} {b b' : Renaming → StoreM Pairs}

theorem nothing : Listed env (pure []) fun _ => pure [] := by
  intro s
  refine ⟨fun _ => 0,fun _ _ _ => Nat.le_refl 0,fun _ _ => rfl,fun run => ?_,fun never => absurd (Runs.ok [] s) (never [] s)⟩
  obtain ⟨ended,rfl⟩ := Runs.pure_iff.mp run
  cases ended
  refine ⟨Nat.le_refl _,fun _ _ => rfl,fun f m _ _ => ⟨[],.nil,?_⟩⟩
  rw [Nat.sub_self]
  exact Runs.ok _ _

/-- A pair, of which a list is made. -/
theorem pair (key : Text) (v : Value) : Listed env (pure [(key,v)]) fun f => do
    let row ← compute (Compute.list [.text key,v.renamed f])
    return [(.empty,row)] := by
  intro s
  refine ⟨fun i => if i < s.nextIdentity then 0 else 1,fun i j le => ?_,fun i below => if_pos below,fun run => ?_,
    fun never => absurd (Runs.ok _ s) (never _ s)⟩
  · split <;> split <;> omega
  · obtain ⟨ended,rfl⟩ := Runs.pure_iff.mp run
    cases ended
    refine ⟨Nat.le_refl _,fun i above => if_neg (Nat.not_lt.mpr above),fun f m _ _ => ?_⟩
    refine ⟨[(.empty,.list m [.text key,v.renamed f])],.cons ⟨m,rfl⟩ .nil,?_⟩
    rw [Nat.sub_self]
    exact compute_list_run.bind (Runs.ok _ _)

/-- What emits no pairs, and makes a row that is no list of a pair if it ends well. -/
theorem unwritable (never : ∀ {s pairs t}, ¬ Runs a s (.ok pairs) t)
    (lists : ∀ f {s rows t}, Runs (b f) s (.ok rows) t → ∃ row ∈ rows, Unwritable row.2) : Listed env a b := fun _ =>
  ⟨fun _ => 0,fun _ _ _ => Nat.le_refl 0,fun _ _ => rfl,fun run => absurd run never,fun _ f _ _ _ _ _ run => lists f run⟩

/-- What follows an action that emits nothing. -/
theorem after {g : Renaming → α → β} {c : StoreM α} {d : Renaming → StoreM β} {a : α → StoreM Pairs} {b : Renaming → β → StoreM Pairs}
    (moving : ∃ f, env.Moves f env) (first : ∀ f, env.Moves f env → Moves f (g f) c (d f)) (rest : ∀ v, Listed env (a v) fun f => b f (g f v)) :
    Listed env (c >>= a) fun f => d f >>= b f := by
  intro s
  rcases ran : c s with _ | ⟨e | v,t⟩
  · refine ⟨fun _ => 0,fun _ _ _ => Nat.le_refl 0,fun _ _ => rfl,fun run => ?_,fun _ f m moves spreads rows u run => ?_⟩
    · obtain ⟨_,_,here,_⟩ := Runs.bind_ok run
      cases ran.symm.trans here
    · obtain ⟨_,_,here,_⟩ := Runs.bind_ok run
      have endless := (first f moves).endless m ran fun k => (spreads k).carries fun _ _ => rfl
      cases endless.symm.trans here
  · have failed : Runs c s (.error e) t := ran
    refine ⟨fun _ => 0,fun _ _ _ => Nat.le_refl 0,fun _ _ => rfl,fun run => ?_,fun _ f m moves spreads rows u run => ?_⟩
    · cases (Runs.unique run failed.bind_error).1
    · have moved := ((first f moves).runs failed).2 m ((spreads _).carries fun _ _ => rfl)
      cases (Runs.unique run moved.bind_error).1
  · have ended : Runs c s (.ok v) t := ran
    obtain ⟨extra,listed⟩ := rest v t
    obtain ⟨_,moves⟩ := moving
    obtain ⟨low,_⟩ := (first _ moves).runs ended
    have early (i : Nat) (below : i < s.nextIdentity) : extra i = 0 := listed.early i (Nat.lt_of_lt_of_le below low)
    -- nothing that the first action makes is moved on further
    have moved {f : Renaming} {m k : Nat} (moves : env.Moves f env) (within : t.nextIdentity ≤ k)
        (spreads : f.Spreads extra s.nextIdentity k m) :
        Runs (d f) (s.renamed f m) (.ok (g f v)) (t.renamed f (m + (t.nextIdentity - s.nextIdentity))) :=
      ((first f moves).runs ended).2 m ((spreads.early within).carries listed.early)
    refine ⟨extra,listed.monotone,early,fun run => ?_,fun never f m moves spreads rows u run => ?_⟩
    · obtain ⟨high,all,there⟩ := listed.ok ((Runs.bind_iff ended).mp run)
      refine ⟨Nat.le_trans low high,all,fun f m moves spreads => ?_⟩
      obtain ⟨rows,related,last⟩ := there f _ moves (spreads.later low)
      rw [Renaming.next_after m low high] at last
      exact ⟨rows,related,(moved moves high spreads).bind last⟩
    · have fails (pairs : Pairs) (u : Store) : ¬ Runs (a v) t (.ok pairs) u := fun last => never pairs u (ended.bind last)
      have last := (Runs.bind_iff (moved moves (Nat.le_refl _) (spreads _))).mp run
      exact listed.failed fails f _ moves (fun k => (spreads k).later low) rows u last

/-- Two that follow each other. -/
theorem append (first : Listed env a b) (rest : Listed env a' b') :
    Listed env (do return (← a) ++ (← a')) fun f => do return (← b f) ++ (← b' f) := by
  intro s
  obtain ⟨extra,listed⟩ := first s
  by_cases ends : ∃ pairs t, Runs a s (.ok pairs) t
  · obtain ⟨pairs,t,ended⟩ := ends
    obtain ⟨more,others⟩ := rest t
    obtain ⟨low,all,there⟩ := listed.ok ended
    refine ⟨fun i => extra i + more i,fun i j le => Nat.add_le_add (listed.monotone le) (others.monotone le),fun i below => ?_,
      fun {both u} run => ?_,fun never f m moves spreads rows u run => ?_⟩
    · rw [listed.early i below,others.early i (Nat.lt_of_lt_of_le below low)]
    · have run := (Runs.bind_iff ended).mp run
      obtain ⟨pairs',_,ended',last⟩ := Runs.bind_ok run
      obtain ⟨same,rfl⟩ := Runs.pure_iff.mp last
      cases same
      obtain ⟨high,all',there'⟩ := others.ok ended'
      refine ⟨Nat.le_trans low high,fun i above => ?_,fun f m moves spreads => ?_⟩
      · rw [all i (Nat.le_trans high above),all' i above,List.length_append]
      · obtain ⟨rows,related,moved⟩ := there f m moves (spreads.front high others.early)
        obtain ⟨rows',related',moved'⟩ := there' f _ moves (spreads.back low all)
        have next : m + (t.nextIdentity - s.nextIdentity) + pairs.length + (u.nextIdentity - t.nextIdentity) + pairs'.length =
            m + (u.nextIdentity - s.nextIdentity) + (pairs ++ pairs').length := by
          rw [List.length_append,← Renaming.next_after m low high]
          omega
        rw [next] at moved'
        exact ⟨rows ++ rows',List.rel_append related related',moved.bind (moved'.bind (Runs.ok _ _))⟩
    · have fails (pairs' : Pairs) (u : Store) : ¬ Runs a' t (.ok pairs') u :=
        fun last => never (pairs ++ pairs') u (ended.bind (last.bind (Runs.ok _ _)))
      obtain ⟨rows₁,_,moved⟩ := there f m moves ((spreads _).front (Nat.le_refl _) others.early)
      obtain ⟨rows',_,ended',last⟩ := Runs.bind_ok ((Runs.bind_iff moved).mp run)
      obtain ⟨row,among,unwritable⟩ := others.failed fails f _ moves (fun k => (spreads k).back low all) rows' _ ended'
      obtain ⟨same,rfl⟩ := Runs.pure_iff.mp last
      cases same
      exact ⟨row,List.mem_append_right rows₁ among,unwritable⟩
  · have fails (pairs : Pairs) (t : Store) : ¬ Runs a s (.ok pairs) t := fun ended => ends ⟨pairs,t,ended⟩
    refine ⟨extra,listed.monotone,listed.early,fun run => ?_,fun _ f m moves spreads rows u run => ?_⟩
    · obtain ⟨pairs,t,ended,_⟩ := Runs.bind_ok run
      exact absurd ended (fails pairs t)
    · obtain ⟨rows₁,t,ended,rest⟩ := Runs.bind_ok run
      obtain ⟨rows',_,_,last⟩ := Runs.bind_ok rest
      obtain ⟨row,among,unwritable⟩ := listed.failed fails f m moves spreads rows₁ t ended
      obtain ⟨same,rfl⟩ := Runs.pure_iff.mp last
      cases same
      exact ⟨row,List.mem_append_left rows' among,unwritable⟩

/-- What is emitted for item after item. -/
theorem each {a : Value → StoreM Pairs} {b : Renaming → Value → StoreM Pairs} (items : List Value)
    (lists : ∀ item, Listed env (a item) fun f => b f (item.renamed f)) :
    Listed env (do return (← items.mapM a).flatten) fun f => do return (← (items.map (Value.renamed f)).mapM (b f)).flatten := by
  have split (a : Value → StoreM Pairs) (first : Value) (rest : List Value) : (do return (← (first :: rest).mapM a).flatten) =
      (do return (← a first) ++ (← (do return (← rest.mapM a).flatten : StoreM Pairs)) : StoreM Pairs) := by
    simp [List.mapM_cons]
  induction items with
  | nil => exact nothing
  | cons first rest ih =>
    simp only [List.map_cons,split]
    exact append (lists first) ih

end Listed

/-! ## Clauses and calls of types -/

namespace Eval

/-- What a mapping comprehension emits: a key and its value. -/
def emitPair (env : Env) (key value : Expr) (frame : Frame) : StoreM (Text × Value) := do
  let name ← check (mappingKey (← eval env frame key))
  return (name,← eval env frame value)

/-- What a list comprehension emits that lists a key and its value. -/
def emitList (env : Env) (key value : Expr) (frame : Frame) : StoreM (Text × Value) := do
  return (.empty,← eval env frame (.list [.one key,.one value]))

variable (moving : ∃ f, env.Moves f env)
include moving

theorem listed_pair (key value : Expr) (frame : Frame) : Listed env (do return [← emitPair env key value frame])
    fun f => do return [← emitList env key value (Pairs.renamed f frame)] := by
  have left : (do return [← emitPair env key value frame] : StoreM Pairs) = do
      let k ← eval env frame key
      let name ← check (mappingKey k)
      let v ← eval env frame value
      return [(name,v)] := by
    simp [emitPair]
  have right (frame : Frame) : (do return [← emitList env key value frame] : StoreM Pairs) = do
      let k ← eval env frame key
      let v ← eval env frame value
      let row ← compute (Compute.list [k,v])
      return [(.empty,row)] := by
    simp [emitList,eval,evalItems]
  have named (name : Text) : (check (.ok name) : StoreM Text) = pure name := rfl
  rw [left]
  simp only [right]
  refine .after moving (fun f moves => moves.eval frame key) fun k => ?_
  have refused (apart : ∀ name, k ≠ .text name) : Listed env
      (do
        let name ← check (mappingKey k)
        let v ← eval env frame value
        return [(name,v)])
      fun f => do
        let v ← eval env (Pairs.renamed f frame) value
        let row ← compute (Compute.list [k.renamed f,v])
        return [(.empty,row)] := by
    refine .unwritable (fun run => ?_) fun f {s rows u} run => ?_
    · obtain ⟨name,_,here,_⟩ := Runs.bind_ok run
      have key := check_ok here
      cases k with
      | text name => exact absurd rfl (apart name)
      | _ => cases key
    · obtain ⟨v,t,_,rest⟩ := Runs.bind_ok run
      have last := (Runs.bind_iff compute_list_run).mp rest
      obtain ⟨same,_⟩ := Runs.pure_iff.mp last
      cases same
      refine ⟨_,List.mem_singleton.mpr rfl,unwritable_list fun name same => ?_⟩
      cases k with
      | text name => exact absurd rfl (apart name)
      | _ => cases same
  cases k with
  | text name =>
    simp only [mappingKey,named,pure_bind]
    exact .after moving (fun f moves => moves.eval frame value) fun v => .pair name v
  | _ =>
    refine refused fun name same => ?_
    cases same

/-- The lists of the pairs that a mapping comprehension emits are what the list comprehension emits that lists them. -/
theorem listed_clauses (key value : Expr) (clauses : List Clause) (frame : Frame) :
    Listed env (evalClauses env frame clauses (emitPair env key value))
      fun f => evalClauses env (Pairs.renamed f frame) clauses (emitList env key value) := by
  induction clauses generalizing frame with
  | nil =>
    simp only [evalClauses]
    exact listed_pair moving key value frame
  | cons clause rest ih =>
    cases clause with
    | when test =>
      simp only [evalClauses]
      refine .after moving (fun f moves => moves.eval frame test) fun v => ?_
      simp only [Value.isTruthy_renamed]
      by_cases holds : v.isTruthy
      · simp only [if_pos holds]
        exact ih frame
      · simp only [if_neg holds]
        exact .nothing
    | each targets iterable =>
      simp only [evalClauses]
      refine .after moving (fun f moves => moves.eval frame iterable) fun v => ?_
      refine .after moving (fun f moves => .check Sequence.iterate_renamed) fun items => ?_
      refine .each items fun item => .after moving (fun f moves => .check (bind_renamed targets)) fun vars => ?_
      have inner (f : Renaming) : Pairs.renamed f vars ++ Pairs.renamed f frame = Pairs.renamed f (vars ++ frame) :=
        List.map_append.symm
      simp only [inner]
      exact ih (vars ++ frame)

omit moving

variable {frame : Frame} {name : Text} {type : TypeName} {e : Expr}

/-- A type that is called by its name converts a value to itself. -/
theorem call_type (named : lookup env frame name = .ok (.object (.type type))) (other : type ≠ .str)
    (invokes : ∀ v, env.invoke (.type type) [v] [] = Cast.invoke type [v] []) :
    Runs (eval env frame (.call (.name name) [.positional e])) s (.ok w) u ↔
      ∃ v t, Runs (eval env frame e) s (.ok v) t ∧ Runs (compute (Cast.convert type v [])) t (.ok w) u := by
  have converted (v : Value) : Cast.invoke type [v] [] = compute (Cast.convert type v []) := by
    cases type with
    | str => exact absurd rfl other
    | _ => rfl
  have named : Runs (eval env frame (.name name)) s (.ok (.object (.type type))) s := by
    rw [eval]
    exact check_run named
  constructor
  · intro run
    rw [eval] at run
    obtain ⟨args,t,given,called⟩ := Runs.bind_ok ((Runs.bind_iff named).mp run)
    rw [evalArguments] at given
    obtain ⟨v,t',here,rest⟩ := Runs.bind_ok given
    rw [evalArguments] at rest
    obtain ⟨same,rfl⟩ := Runs.pure_iff.mp rest
    cases same
    rcases Runs.tryCatch_inv called with ⟨_,same,ended⟩ | ⟨e,_,_,handled⟩
    · cases same
      refine ⟨v,_,here,?_⟩
      rw [← converted,← invokes]
      exact ended
    · cases e with
      | fault fault => cases (Runs.throw_iff.mp handled).1
      | foreign message => exact absurd handled throwCause_fails
  · rintro ⟨v,t,here,ended⟩
    rw [← converted,← invokes] at ended
    rw [eval]
    refine named.bind ?_
    have given : Runs (evalArguments env frame (calleeName (.name name) (.object (.type type))) ⟨[],[]⟩ [.positional e]) s
        (.ok ⟨[v],[]⟩) t := by
      rw [evalArguments]
      refine here.bind ?_
      rw [evalArguments]
      exact Runs.ok _ _
    exact given.bind (Runs.tryCatch_ok ended)

end Eval

/-! ## Agreement -/

/-- From the store both actions end well or neither does, and what they give then is the same. -/
structure Agree (same : Value → Value → Prop) (a b : StoreM Value) (s : Store) : Prop where
  ends : (∃ v t, Runs a s (.ok v) t) ↔ ∃ w u, Runs b s (.ok w) u
  gives : ∀ {v w t u}, Runs a s (.ok v) t → Runs b s (.ok w) u → same v w

/-- Sets of the same members in the same order. -/
def SameSet (v w : Value) : Prop := ∃ i j members, v = .set i members ∧ w = .set j members

/-- Mappings of the same keys in the same order to the same values, but for the identities from `n` on that these have or
hold: of things that either evaluation made for itself. -/
def SameMapping (n : Nat) (v w : Value) : Prop :=
  ∃ i j pairs, ∃ f : Renaming, f.Keeps n ∧ v = .mapping i pairs ∧ w = .mapping j (Pairs.renamed f pairs)

namespace Agree

variable {same : Value → Value → Prop} {a b : StoreM Value}

theorem of_runs (first : Runs a s (.ok v) t) (second : Runs b s (.ok w) u) (holds : same v w) : Agree same a b s where
  ends := ⟨fun _ => ⟨w,u,second⟩,fun _ => ⟨v,t,first⟩⟩
  gives first' second' := by
    cases (Runs.unique first first').1
    cases (Runs.unique second second').1
    exact holds

theorem of_neither (first : ∀ v t, ¬ Runs a s (.ok v) t) (second : ∀ w u, ¬ Runs b s (.ok w) u) : Agree same a b s where
  ends := ⟨fun ⟨v,t,run⟩ => absurd run (first v t),fun ⟨w,u,run⟩ => absurd run (second w u)⟩
  gives run := absurd run (first _ _)

end Agree

namespace Eval

variable {host : Host} {depth : Nat} {context locals : Pairs} {frame : Frame}

/-- What a list comprehension gives is what its clauses emit. -/
theorem list_ok {element : Expr} {clauses : List Clause} :
    Runs (eval env frame (.comprehension .list element clauses)) s (.ok v) u ↔
      ∃ emitted t, Runs (evalClauses env frame clauses fun inner => do return (.empty,← eval env inner element)) s (.ok emitted) t ∧
        v = .list t.nextIdentity (emitted.map Prod.snd) ∧ u = t.issued 1 := by
  rw [eval]
  constructor
  · intro run
    obtain ⟨emitted,t,here,last⟩ := Runs.bind_ok run
    obtain ⟨same,rfl⟩ := Runs.unique last compute_list_run
    exact ⟨emitted,t,here,Except.ok.inj same,rfl⟩
  · rintro ⟨emitted,t,here,rfl,rfl⟩
    exact here.bind compute_list_run

/-- A set comprehension agrees with the set of the list comprehension. -/
theorem set_agrees (named : lookup env frame "set" = .ok (.object (.type .set)))
    (invokes : ∀ v, env.invoke (.type .set) [v] [] = Cast.invoke .set [v] []) (element : Expr) (clauses : List Clause) (s : Store) :
    Agree SameSet (eval env frame (.comprehension .set element clauses))
      (eval env frame (.call (.name "set") [.positional (.comprehension .list element clauses)])) s := by
  have made (items : List Value) (t : Store) :
      Runs (compute (Compute.set items)) t (.ok (.set t.nextIdentity (Value.members items))) (t.issued 1) := rfl
  by_cases ends : ∃ emitted t,
      Runs (evalClauses env frame clauses fun inner => do return (.empty,← eval env inner element)) s (.ok emitted) t
  · obtain ⟨emitted,t,run⟩ := ends
    have displayed : Runs (eval env frame (.comprehension .set element clauses)) s
        (.ok (.set t.nextIdentity (Value.members (emitted.map Prod.snd)))) (t.issued 1) := by
      rw [eval]
      exact run.bind (made _ t)
    have called := (call_type named (by decide) invokes).mpr ⟨_,_,list_ok.mpr ⟨emitted,t,run,rfl,rfl⟩,made (emitted.map Prod.snd) _⟩
    exact .of_runs displayed called ⟨_,_,_,rfl,rfl⟩
  · refine .of_neither (fun v u run => ends ?_) fun w u run => ends ?_
    · rw [eval] at run
      obtain ⟨emitted,t,here,_⟩ := Runs.bind_ok run
      exact ⟨emitted,t,here⟩
    · obtain ⟨v,t,listed,_⟩ := (call_type named (by decide) invokes).mp run
      obtain ⟨emitted,t,here,_⟩ := list_ok.mp listed
      exact ⟨emitted,t,here⟩

/-- A mapping comprehension agrees with the mapping of the list comprehension that lists its pairs. -/
theorem mapping_agrees (ready : Ready host context locals frame s) (moves : ∀ f : Renaming, f.Keeps s.nextIdentity → env.Moves f env)
    (named : lookup env frame "dict" = .ok (.object (.type .dict)))
    (invokes : ∀ v, env.invoke (.type .dict) [v] [] = Cast.invoke .dict [v] []) (key value : Expr) (clauses : List Clause) :
    Agree (SameMapping s.nextIdentity) (eval env frame (.mappingComprehension key value clauses))
      (eval env frame (.call (.name "dict") [.positional (.comprehension .list (.list [.one key,.one value]) clauses)])) s := by
  obtain ⟨extra,listed⟩ := listed_clauses ⟨.same,moves _ fun _ _ => rfl⟩ key value clauses frame s
  let f : Renaming := {
    map := fun i => i + extra i
    injective := StrictMono.injective fun i j less => Nat.add_lt_add_of_lt_of_le less (listed.monotone (Nat.le_of_lt less))
    zero := (Nat.zero_add _).trans (listed.early 0 ready.positive) }
  have keeps : f.Keeps s.nextIdentity := by
    intro i below
    show i + extra i = i
    rw [listed.early i below,Nat.add_zero]
  have spreads (k : Nat) : f.Spreads extra s.nextIdentity k s.nextIdentity := by
    intro i _ _
    show i + extra i + s.nextIdentity = s.nextIdentity + i + extra i
    omega
  by_cases ends : ∃ pairs t, Runs (evalClauses env frame clauses (emitPair env key value)) s (.ok pairs) t
  · obtain ⟨pairs,t,run⟩ := ends
    have displayed : Runs (eval env frame (.mappingComprehension key value clauses)) s
        (.ok (.mapping t.nextIdentity (Pairs.ofList pairs))) (t.issued 1) := by
      rw [eval]
      exact run.bind compute_mapping_run
    obtain ⟨rows,related,moved⟩ := (listed.ok run).2.2 f s.nextIdentity (moves f keeps) (spreads _)
    rw [ready.store f keeps,ready.frame f keeps] at moved
    generalize t.renamed f _ = t' at moved
    have converted : Runs (compute (Cast.convert .dict (.list t'.nextIdentity (rows.map Prod.snd)) [])) (t'.issued 1)
        (.ok (.mapping (t'.nextIdentity + 1) (Pairs.renamed f (Pairs.ofList pairs)))) ((t'.issued 1).issued 1) := by
      refine compute_run ?_
      rw [convert_dict,insertPair_rows related,← Pairs.mapValues_nil,Pairs.insertAll_mapValues]
      rfl
    have called := (call_type named (by decide) invokes).mpr ⟨_,_,list_ok.mpr ⟨rows,t',moved,rfl,rfl⟩,converted⟩
    exact .of_runs displayed called ⟨_,_,_,f,keeps,rfl,rfl⟩
  · have never (pairs : Pairs) (t : Store) : ¬ Runs (evalClauses env frame clauses (emitPair env key value)) s (.ok pairs) t :=
      fun run => ends ⟨pairs,t,run⟩
    refine .of_neither (fun v u run => ?_) fun w u run => ?_
    · rw [eval] at run
      obtain ⟨pairs,t,here,_⟩ := Runs.bind_ok run
      exact never pairs t here
    · obtain ⟨v,t,given,converted⟩ := (call_type named (by decide) invokes).mp run
      obtain ⟨rows,t,here,rfl,rfl⟩ := list_ok.mp given
      have failed := listed.failed never f s.nextIdentity (moves f keeps) spreads rows t
      rw [ready.store f keeps,ready.frame f keeps] at failed
      obtain ⟨row,among,unwritable⟩ := failed here
      obtain ⟨next,ended,_⟩ := compute_inv converted
      rw [convert_dict] at ended
      obtain ⟨after,written,_⟩ := ok_of_map ended
      exact insertPair_unwritable among unwritable [] after written

/-- A set comprehension agrees with `set` of the list comprehension, and a mapping comprehension with `dict` of the list
comprehension that lists its pairs: in a tree, with pure functions, whatever the clauses and expressions are. -/
theorem comprehensions_agree (ready : Ready host context locals frame s)
    (sets : lookup (Expression.env host (Calls.ofDepth host (depth + 1)) context locals) frame "set" = .ok (.object (.type .set)))
    (dicts : lookup (Expression.env host (Calls.ofDepth host (depth + 1)) context locals) frame "dict" = .ok (.object (.type .dict))) :
    (∀ (element : Expr) (clauses : List Clause), Agree SameSet
      (eval (Expression.env host (Calls.ofDepth host (depth + 1)) context locals) frame (.comprehension .set element clauses))
      (eval (Expression.env host (Calls.ofDepth host (depth + 1)) context locals) frame
        (.call (.name "set") [.positional (.comprehension .list element clauses)])) s) ∧
    (∀ (key value : Expr) (clauses : List Clause), Agree (SameMapping s.nextIdentity)
      (eval (Expression.env host (Calls.ofDepth host (depth + 1)) context locals) frame (.mappingComprehension key value clauses))
      (eval (Expression.env host (Calls.ofDepth host (depth + 1)) context locals) frame
        (.call (.name "dict") [.positional (.comprehension .list (.list [.one key,.one value]) clauses)])) s) :=
  ⟨fun element clauses => set_agrees sets (fun _ => rfl) element clauses s,
    fun key value clauses => mapping_agrees ready (fun _ keeps => ready.moves (depth + 1) keeps) dicts (fun _ => rfl) key value clauses⟩

/-- The names of the two types. -/
def collectionTypes : Pairs := [("set",.object (.type .set)),("dict",.object (.type .dict))]

/-- What is evaluated where only the two types have names. -/
def collectionEnv : Env := Expression.env (.bare [] "/") (Calls.ofDepth (.bare [] "/") 1) collectionTypes []

/-- Clauses that bind `k` and `v` to pairs of texts, of which the first and the last one have one key. -/
def repeatedKey : List Clause :=
  let pair (key value : Text) : Item := .one (.list [.one (.literal (.text key)),.one (.literal (.text value))])
  [.each ["k","v"] (.list [pair "a" "x",pair "b" "y",pair "a" "z"])]

/-- A key that is repeated keeps its place and gets its last value, both ways. -/
theorem comprehensions_agree_repeated : Ready (.bare [] "/") collectionTypes [] [] (Store.empty 1) ∧
    Agree (SameMapping 1) (eval collectionEnv [] (.mappingComprehension (.name "k") (.name "v") repeatedKey))
      (eval collectionEnv [] (.call (.name "dict")
        [.positional (.comprehension .list (.list [.one (.name "k"),.one (.name "v")]) repeatedKey)])) (Store.empty 1) ∧
    ((eval collectionEnv [] (.mappingComprehension (.name "k") (.name "v") repeatedKey) (Store.empty 1)).any fun p =>
      match p.1 with
      | .ok (.mapping _ [(first,.text v),(second,.text w)]) => [first,v,second,w] == (["a","z","b","y"] : List Text)
      | _ => false) = true := by
  have ready : Ready (.bare [] "/") collectionTypes [] [] (Store.empty 1) := {
    positive := Nat.one_pos
    pure := fun f _ => ⟨fun name _ _ _ => .throw (.foreign name),fun _ _ => .const rfl,fun _ v => .pure v⟩
    context := fun f _ => rfl
    locals := fun f _ => rfl
    frame := fun f _ => rfl
    store := Store.known_empty 1 }
  exact ⟨ready,(comprehensions_agree ready rfl rfl).2 _ _ repeatedKey,by decide +kernel⟩

end Eval
end ConfTree
