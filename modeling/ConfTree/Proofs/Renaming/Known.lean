import ConfTree.Configuration
import ConfTree.Proofs.Renaming.Work

/-!
# Known identities

Where nothing has an identity that is still free, a renaming of free identities changes nothing. An empty store is such a
place, and each evaluation leaves one (`Eval.Ready.after`).
-/
namespace ConfTree

/-- The identities below `n` stay. -/
def Renaming.Keeps (f : Renaming) (n : Nat) : Prop := ∀ i < n, f i = i

/-- The renaming that changes nothing. -/
def Renaming.same : Renaming := ⟨id,Function.injective_id,rfl⟩

theorem Renaming.Keeps.early {f : Renaming} {n k : Nat} (keeps : f.Keeps k) (low : n ≤ k) : f.Keeps n :=
  fun i below => keeps i (Nat.lt_of_lt_of_le below low)

/-- The functions of the embedding program are pure: what they make of their arguments depends neither on the identities
of these nor on which ones are free, but for identities below `n`, of what the program may hold itself. -/
def Host.Pure (host : Host) (n : Nat) : Prop := ∀ f : Renaming, f.Keeps n → host.Uniform f

theorem Host.Pure.later {host : Host} {n k : Nat} (pure : host.Pure n) (low : n ≤ k) : host.Pure k :=
  fun f keeps => pure f (keeps.early low)

/-- No pair has an identity from `n` on: to rename only those changes nothing. -/
def Pairs.Known (n : Nat) (pairs : Pairs) : Prop := ∀ f : Renaming, f.Keeps n → Pairs.renamed f pairs = pairs

theorem Pairs.Known.later {pairs : Pairs} {n k : Nat} (known : Known n pairs) (low : n ≤ k) : Known k pairs :=
  fun f keeps => known f (keeps.early low)

/-- Nothing in the store has an identity that is still free. -/
def Store.Known (s : Store) : Prop := ∀ f : Renaming, f.Keeps s.nextIdentity → s.renamed f s.nextIdentity = s

variable {s t : Store}

theorem Store.known_empty (next : Identity) : (Store.empty next).Known := by
  intro f _
  simp [renamed,empty,noSession,Session.renamed]

/-- What is done without regard to free identities leaves a store in which all are known, and so are those of its result. -/
theorem Store.Known.after {α : Type} {g : Renaming → α → α} {a : StoreM α} {r : Except Thrown α} (known : s.Known)
    (moves : ∀ f : Renaming, f.Keeps s.nextIdentity → Moves f (g f) a a) (run : Runs a s r t) :
    s.nextIdentity ≤ t.nextIdentity ∧ t.Known ∧ ∀ f : Renaming, f.Keeps t.nextIdentity → g f <$> r = r := by
  have same (f : Renaming) (keeps : f.Keeps t.nextIdentity) (low : s.nextIdentity ≤ t.nextIdentity) :
      g f <$> r = r ∧ t.renamed f t.nextIdentity = t := by
    have early := keeps.early low
    have carries : f.Carries s.nextIdentity t.nextIdentity s.nextIdentity := by
      intro i _ below
      rw [keeps i below,Nat.add_comm]
    have moved := ((moves f early).runs run).2 _ carries
    rw [known f early,Nat.add_sub_cancel' low] at moved
    obtain ⟨result,store⟩ := Runs.unique moved run
    exact ⟨result,store⟩
  have low := ((moves .same fun _ _ => rfl).runs run).1
  exact ⟨low,fun f keeps => (same f keeps low).2,fun f keeps => (same f keeps low).1⟩

/-- The names of the session are among what is known. -/
theorem Store.Known.context (known : s.Known) : Pairs.Known s.nextIdentity s.session.context :=
  fun f keeps => congrArg (fun s : Store => s.session.context) (known f keeps)

/-- An expression may be evaluated from the store with these names: the functions of the program are pure, and nothing has
an identity that is still free. -/
structure Eval.Ready (host : Host) (context locals : Pairs) (frame : Frame) (s : Store) : Prop where
  positive : 0 < s.nextIdentity
  pure : host.Pure s.nextIdentity
  context : Pairs.Known s.nextIdentity context
  locals : Pairs.Known s.nextIdentity locals
  frame : Pairs.Known s.nextIdentity frame
  store : s.Known

namespace Eval.Ready

variable {host : Host} {depth : Nat} {context locals : Pairs} {frame : Frame}

theorem moves (ready : Ready host context locals frame s) (depth : Nat) {f : Renaming} (keeps : f.Keeps s.nextIdentity) :
    (Expression.env host (Calls.ofDepth host depth) context locals).Moves f
      (Expression.env host (Calls.ofDepth host depth) context locals) := by
  have moves := (Calls.ofDepth_uniform (ready.pure f keeps) depth).env (ready.pure f keeps) context locals
  rwa [ready.context f keeps,ready.locals f keeps] at moves

/-- An evaluation leaves a store from which others may start. -/
theorem after {e : Expr} {r : Except Thrown Value} (ready : Ready host context locals frame s)
    (run : Runs (eval (Expression.env host (Calls.ofDepth host depth) context locals) frame e) s r t) :
    Ready host context locals frame t := by
  have moves (f : Renaming) (keeps : f.Keeps s.nextIdentity) : Moves f (Value.renamed f)
      (eval (Expression.env host (Calls.ofDepth host depth) context locals) frame e)
      (eval (Expression.env host (Calls.ofDepth host depth) context locals) frame e) := by
    have evaluated := (ready.moves depth keeps).eval frame e
    rwa [ready.frame f keeps] at evaluated
  obtain ⟨low,known,_⟩ := ready.store.after moves run
  exact ⟨Nat.lt_of_lt_of_le ready.positive low,ready.pure.later low,ready.context.later low,ready.locals.later low,
    ready.frame.later low,known⟩

end Eval.Ready
end ConfTree
