import Mathlib.Data.List.DropRight
import ConfTree.Text.Blank

/-!
# Patterns

Patterns of units, matched by trying: a repetition takes as many units as it can or as few, an optional part is taken before it
is left out, and what was taken last is taken back first when the rest does not match (`Pattern.matchThen`). The first way that
matches a whole text gives what the groups took (`Pattern.groups?`).

What a repetition takes is known without the search where what follows says so: all it can, if what follows would not match
any earlier either (`repeatThen_most`), or a beginning that what follows cannot do without (`repeatThen_least`).
-/
namespace ConfTree

/-- A pattern of units. -/
inductive Pattern where
  /-- one unit of a class -/
  | one (among : CodeUnit → Bool)
  /-- units of a class, as many as can be or as few -/
  | many (among : CodeUnit → Bool) (greedy : Bool)
  | followed (first second : Pattern)
  | optional (part : Pattern)
  /-- a part whose text is kept under a number -/
  | group (number : Nat) (part : Pattern)

namespace Pattern

/-- The texts that groups took, the latest first. -/
abbrev Groups := List (Nat × Text)

variable {α : Type}

/-- Takes units of a class and goes on with `next`, at each place where that may be until it is done. -/
def repeatThen (among : CodeUnit → Bool) (greedy : Bool) (next : List CodeUnit → Option α) : List CodeUnit → Option α
  | [] => next []
  | u :: rest =>
    let longer := if among u then repeatThen among greedy next rest else none
    if greedy then longer <|> next (u :: rest) else next (u :: rest) <|> longer

/-- Matches a pattern and goes on with `next`, in one way after another until it is done. -/
def matchThen : Pattern → Groups → (Groups → List CodeUnit → Option α) → List CodeUnit → Option α
  | one _, _, _, [] => none
  | one among, groups, next, u :: rest => if among u then next groups rest else none
  | many among greedy, groups, next, us => repeatThen among greedy (next groups) us
  | followed first second, groups, next, us => first.matchThen groups (fun groups => second.matchThen groups next) us
  | optional part, groups, next, us => part.matchThen groups next us <|> next groups us
  | group number part, groups, next, us =>
    part.matchThen groups (fun groups rest => next ((number,⟨us.take (us.length - rest.length)⟩) :: groups) rest) us

/-- What the groups of a pattern take where it matches a whole text. -/
def groups? (p : Pattern) (t : Text) : Option Groups :=
  p.matchThen [] (fun groups rest => if rest.isEmpty then some groups else none) t.units

section Repetition

variable {among : CodeUnit → Bool} {next : List CodeUnit → Option α} {us kept rest : List CodeUnit} {v : α}

/-- A repetition does not match if what follows matches nowhere. -/
theorem repeatThen_none {greedy : Bool} (fails : ∀ run rest, us = run ++ rest → (∀ u ∈ run, among u = true) → next rest = none) :
    repeatThen among greedy next us = none := by
  induction us with
  | nil => exact fails [] [] rfl nofun
  | cons u us ih =>
    have longer : (if among u then repeatThen among greedy next us else none) = none := by
      split
      · next inside =>
        exact ih fun run rest cut all => fails (u :: run) rest (by rw [cut]; rfl) (List.forall_mem_cons.mpr ⟨inside,all⟩)
      · rfl
    rw [repeatThen,longer,fails [] (u :: us) rfl nofun]
    cases greedy <;> rfl

/-- A greedy repetition takes all that it can, if what follows would not match any earlier where it does not match then. -/
theorem repeatThen_most (no_earlier : next (us.dropWhile among) = none →
    ∀ run rest, us = run ++ rest → (∀ u ∈ run, among u = true) → next rest = none) :
    repeatThen among true next us = next (us.dropWhile among) := by
  rcases outcome : next (us.dropWhile among) with _ | v
  · exact repeatThen_none (no_earlier outcome)
  clear no_earlier
  induction us with
  | nil => exact outcome
  | cons u us ih =>
    by_cases inside : among u = true
    · rw [List.dropWhile_cons_of_pos inside] at outcome
      rw [repeatThen,if_pos rfl,if_pos inside,ih outcome]
      rfl
    · rw [List.dropWhile_cons_of_neg inside] at outcome
      rw [repeatThen,if_pos rfl,if_neg inside,outcome]
      rfl

/-- A greedy repetition takes all that it can, if what follows begins with no unit of its class. -/
theorem repeatThen_firm (next : List CodeUnit → Option α) (us : List CodeUnit) (firm : ∀ u rest, among u = true → next (u :: rest) = none) :
    repeatThen among true next us = next (us.dropWhile among) := by
  refine repeatThen_most fun failed run rest cut all => ?_
  have same : us.dropWhile among = rest.dropWhile among := by rw [cut,List.dropWhile_append_of_pos all]
  cases rest with
  | nil => rwa [same] at failed
  | cons u rest =>
    by_cases inside : among u = true
    · exact firm u rest inside
    · rwa [same,List.dropWhile_cons_of_neg inside] at failed

/-- A lazy repetition takes what it has to. -/
theorem repeatThen_least (next : List CodeUnit → Option α) (inside : ∀ u ∈ kept, among u = true)
    (needed : ∀ s, s ≠ [] → s <:+ kept → next (s ++ rest) = none)
    (matched : next rest = some v) : repeatThen among false next (kept ++ rest) = some v := by
  induction kept with
  | nil => cases rest <;> simp [repeatThen,matched]
  | cons u kept ih =>
    have later := ih (fun w member => inside w (List.mem_cons_of_mem _ member)) fun s apart ends =>
      needed s apart (ends.trans (List.suffix_cons u kept))
    have here := needed (u :: kept) nofun (List.suffix_refl _)
    rw [List.cons_append] at here
    rw [List.cons_append,repeatThen,if_neg Bool.false_ne_true,here,if_pos (inside u List.mem_cons_self),later]
    rfl

end Repetition

end Pattern
end ConfTree
