import ConfTree.Proofs.Overrides.Law
import ConfTree.Proofs.Syntax.Numeral
import ConfTree.Proofs.Syntax.Source
import ConfTree.Proofs.WholeNumbers

/-!
# Targets

A target is known by its steps joined by points, whatever mix of points, brackets and quotes it writes them with. Where
each step is a name or an index below `2 ^ 53`, the canonical path reads as the same steps, so that it is its own canonical
form and belongs to no other steps. A quoted step may be any other text as well, and then neither has to hold: the
canonical path of `a["b.c"]` is that of `a.b.c`, and that of `a["for"]` is no target.
-/
namespace ConfTree.Reader

variable {α β : Type}

theorem runAll_map (g : α → β) (r : Reader α) (t : Text) : runAll (g <$> r) t = (runAll r t).map g := by
  have run : ((g <$> r) ⟨0,t.units⟩).run 0 =
      (((r ⟨0,t.units⟩).run 0).1.map fun x => (g x.1,x.2),((r ⟨0,t.units⟩).run 0).2) := by
    rw [map_eq_pure_bind,run_bind]
    rcases (r ⟨0,t.units⟩).run 0 with ⟨_ | x,n⟩ <;> rfl
  unfold runAll
  rw [run]
  rcases (r ⟨0,t.units⟩).run 0 with ⟨_ | ⟨a,c⟩,n⟩
  · rfl
  · cases h : c.rest.isEmpty <;> simp [h,Except.map]

end ConfTree.Reader

namespace ConfTree.Grammar

open Reader Token

set_option synthInstance.maxSize 3000

variable {w : List CodeUnit} {s head : Text} {tail path : List Text}

/-- The steps of a target. -/
def targetSteps : Reader (List Text) := do
  let head ← identifier
  return head :: (← many targetStep)

/-- The steps of a target and nothing else. -/
def parseTargetSteps (t : Text) : Except Nat (List Text) :=
  runAll (do blanks; let path ← targetSteps; blanks; return path) t

/-- The canonical path has the steps joined by points. -/
theorem parseTarget_eq (t : Text) : parseTarget t = (parseTargetSteps t).map (Text.join ".") := by
  have read : (do blanks; let t ← target; blanks; return t : Reader Text) =
      Text.join "." <$> (do blanks; let path ← targetSteps; blanks; return path : Reader (List Text)) := by
    simp [target,targetSteps]
  rw [parseTarget,parseTargetSteps,read,runAll_map]

instance : Steady targetSteps := by unfold targetSteps; infer_instance

/-- A target begins with a name. -/
theorem isName_of_parseTargetSteps {t : Text} (h : parseTargetSteps t = .ok path) :
    ∃ head tail, path = head :: tail ∧ isName head := by
  simp only [parseTargetSteps,targetSteps,runAll_eq_ok,← reads_nil,reads_bind,reads_pure] at h
  obtain ⟨_,x1,-,_,x2,⟨head,x3,h,tail,x4,-,rfl,-⟩,_,x5,-,rfl,-⟩ := h
  exact ⟨head,tail,rfl,(reads_identifier.mp h).2.1⟩

/-! ## Plain steps -/

/-- A step that is a name or an index. -/
def IsPlainStep (s : Text) : Prop := isName s ∨ ∃ n < 2 ^ 53, s = Text.ofNat n

/-- A plain step after a point is read as it stands. -/
theorem outcome_dotted (plain : IsPlainStep s) (ends : ¬ w.head?.any CodeUnit.inName) :
    outcome targetStep (CodeUnit.ofChar '.' :: (s.units ++ w)) = some (s,w) := by
  have part : outcome (orElse identifier index) (s.units ++ w) = some (s,w) := by
    rw [outcome_orElse]
    rcases plain with name | ⟨n,small,rfl⟩
    · have read : outcome identifier (s.units ++ w) = some (s,w) :=
        reads_nil.mp (reads_identifier.mpr ⟨rfl,name,by simpa using ends⟩)
      rw [read,Option.some_or]
    · have first : ¬ ((Text.ofNat n).units ++ w).head?.any CodeUnit.startsName := by
        obtain ⟨u,x,e⟩ := List.exists_cons_of_ne_nil (Text.ofNat_units_ne_nil n)
        have digit : u.isDigit := Text.isDigit_of_mem_ofNat (e ▸ List.mem_cons_self)
        rw [e]
        intro letter
        rw [(letter_facts letter).1] at digit
        cases digit
      have none : outcome identifier ((Text.ofNat n).units ++ w) = none := identifier_refuses first
      rw [none,Option.none_or,index,outcome_bind,outcome_digits n (not_isDigit_of_not_inName ends),Option.bind_some,
        outcome_pure,Number.valueOfDigits_ofNat,Number.text_ofNat small]
  rw [targetStep,outcome_orElse,outcome_bind,outcome_unit_self,Option.bind_some,part,Option.some_or]

theorem units_join (head : Text) (tail : List Text) :
    (Text.join "." (head :: tail)).units = head.units ++ tail.flatMap fun s => CodeUnit.ofChar '.' :: s.units :=
  Text.units_join_cons "." head tail

theorem ends_steps (tail : List Text) :
    ¬ (tail.flatMap fun s => CodeUnit.ofChar '.' :: s.units).head?.any CodeUnit.inName := by
  cases tail with
  | nil => simp
  | cons s tail =>
    rw [List.flatMap_cons,List.cons_append]
    exact Bool.false_ne_true

theorem outcome_steps (plain : ∀ s ∈ tail, IsPlainStep s) :
    outcome (many targetStep) (tail.flatMap fun s => CodeUnit.ofChar '.' :: s.units) = some (tail,[]) := by
  refine outcome_many.mpr ⟨?_,rfl⟩
  induction tail with
  | nil => exact .nil _
  | cons s tail ih =>
    obtain ⟨here,rest⟩ := List.forall_mem_cons.mp plain
    refine .cons ?_ (ih rest)
    rw [List.flatMap_cons,List.cons_append]
    exact outcome_dotted here (ends_steps tail)

theorem isSpace_of_startsName {u : CodeUnit} (letter : u.startsName) : isSpace u = false := by
  refine Bool.eq_false_iff.mpr fun space => ?_
  simp only [isSpace,Bool.or_eq_true,beq_iff_eq] at space
  rcases space with ((rfl | rfl) | rfl) | rfl <;> exact absurd letter (by decide)

/-- A canonical path of plain steps reads as these. -/
theorem parseTargetSteps_join (name : isName head) (plain : ∀ s ∈ tail, IsPlainStep s) :
    parseTargetSteps (Text.join "." (head :: tail)) = .ok (head :: tail) := by
  have first : Reads [] identifier (Text.join "." (head :: tail)).units head
      (tail.flatMap fun s => CodeUnit.ofChar '.' :: s.units) :=
    reads_identifier.mpr ⟨units_join head tail,name,by simpa using ends_steps tail⟩
  have unspaced : skip (Text.join "." (head :: tail)).units = (Text.join "." (head :: tail)).units := by
    obtain ⟨c,x,e,letter⟩ := identifier_head first
    rw [e]
    exact skip_cons (isSpace_of_startsName letter)
  have ended : skip [] = [] := rfl
  rw [parseTargetSteps,runAll_eq_ok]
  simp only [targetSteps,outcome_bind,outcome_blanks,Option.bind_some,unspaced,reads_nil.mp first,outcome_steps plain,
    outcome_pure,ended]

/-- The steps that some target has, each a name or an index. -/
def ArePlainSteps (path : List Text) : Prop := (∃ t, parseTargetSteps t = .ok path) ∧ ∀ s ∈ path, IsPlainStep s

namespace ArePlainSteps

/-- Joined by points, plain steps are read again. -/
theorem read_join (plain : ArePlainSteps path) : parseTargetSteps (.join "." path) = .ok path := by
  obtain ⟨⟨t,h⟩,plain⟩ := plain
  obtain ⟨head,tail,rfl,name⟩ := isName_of_parseTargetSteps h
  exact parseTargetSteps_join name (List.forall_mem_cons.mp plain).2

theorem join_inj {path' : List Text} (plain : ArePlainSteps path) (plain' : ArePlainSteps path')
    (same : Text.join "." path = Text.join "." path') : path = path' := by
  have again := plain.read_join
  rw [same,plain'.read_join] at again
  exact (Except.ok.inj again).symm

end ArePlainSteps

/-- The canonical path of a target of plain steps is a target, which has the same steps and is its own canonical path. -/
theorem parseTarget_canonical {t : Text} (h : parseTargetSteps t = .ok path) (plain : ∀ s ∈ path, IsPlainStep s) :
    ∃ canonical, parseTarget t = .ok canonical ∧ parseTarget canonical = .ok canonical ∧
      parseTargetSteps canonical = .ok path := by
  have again := ArePlainSteps.read_join ⟨⟨t,h⟩,plain⟩
  exact ⟨.join "." path,by rw [parseTarget_eq,h]; rfl,by rw [parseTarget_eq,again]; rfl,again⟩

/-- Overrides of targets of plain steps conflict only where two of them have the same steps. -/
theorem conflicts_of_plain {paths : List (List Text)} (plain : ∀ path ∈ paths, ArePlainSteps path) :
    Overrides.conflicts (paths.map (Text.join ".")) = [] ↔ paths.Nodup := by
  rw [Overrides.conflicts_eq_nil]
  refine ⟨List.Nodup.of_map _,fun distinct => (List.nodup_map_iff_inj_on distinct).mpr ?_⟩
  exact fun path member path' member' => (plain path member).join_inj (plain path' member')

/-- Targets of other steps may have one canonical path. -/
example : parseTarget "a[\"b.c\"]" = parseTarget "a.b.c" ∧ parseTargetSteps "a[\"b.c\"]" ≠ parseTargetSteps "a.b.c" := by
  decide +kernel

end ConfTree.Grammar
