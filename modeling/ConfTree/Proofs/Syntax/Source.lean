import ConfTree.Proofs.Rounding
import ConfTree.Proofs.Syntax.Cut
import ConfTree.Tree.Expression

/-!
# Sources of assignments

An assignment keeps the text that its expression was read from, which ends where the expression ends.
Read on its own, with less fuel and nothing after it, that text gives the same expression; and it is
no longer than the whole, so a limit on the length that the whole keeps is kept by it.
-/
namespace ConfTree.Reader

theorem runAll_eq_ok {α : Type} {r : Reader α} [Steady r] {t : Text} {a : α} :
    runAll r t = .ok a ↔ outcome r t.units = some (a,[]) := by
  have h := Steady.run_eq (r := r) 0 t.units 0
  unfold runAll
  rcases hr : (r ⟨0,t.units⟩).run 0 with ⟨o,n⟩
  rw [hr] at h
  subst h
  rcases outcome r t.units with _ | ⟨b,w⟩
  · simp
  · cases w <;> simp [place]

end ConfTree.Reader

namespace ConfTree.Grammar

open Reader Token

set_option synthInstance.maxSize 3000

variable {v t w : List CodeUnit}

theorem skip_of_opens (h : opens t) : skip t = t := by
  cases t with
  | nil => rfl
  | cons u x =>
    refine skip_cons (Bool.eq_false_iff.mpr fun hu => ?_)
    simp only [isSpace,Bool.or_eq_true,beq_iff_eq] at hu
    rcases hu with ((rfl | rfl) | rfl) | rfl <;> exact absurd h Bool.false_ne_true

/-! ## Readers of assignments -/

instance : Steady index := by unfold index; infer_instance
instance : Steady targetStep := by unfold targetStep; infer_instance
instance : Consuming targetStep := by unfold targetStep; infer_instance
instance : Steady target := by unfold target; infer_instance
instance (r : Rules) [Steady r.expression] : Steady (assignment r) := by unfold assignment; infer_instance
instance : Steady separator := by unfold separator; infer_instance
instance : Consuming separator := by unfold separator; infer_instance

instance (t : Text) : Apt (rulesFor t) := apt_rules _

theorem parseExpression_of_outcome {t : Text} {e : Expr} (h : outcome (rulesFor t).expression t.units = some (e,[])) :
    parseExpression t = .ok e := by
  rw [parseExpression,runAll_eq_ok]
  simp [outcome_bind,outcome_map,outcome_blanks,skip_of_opens (opens_of_outcome h),h]
  rfl

/-- The source of an assignment is a part of the text and reads as its expression. -/
theorem source_of_assignment {n : Nat} {a : Assignment} (h : Reads v (assignment (rules n)) t a w) :
    parseExpression a.source = .ok a.expression ∧ a.source.length ≤ t.length := by
  simp only [assignment,reads_bind] at h
  obtain ⟨path,x1,h1,_,x2,h2,_,x3,h3,_,x4,h4,⟨e,source⟩,x5,h5,h6⟩ := h
  obtain ⟨rfl,rfl⟩ := reads_pure.mp h6
  obtain ⟨h5,hs⟩ := reads_withSource.mp h5
  have l1 := h1.length_le
  have l2 := h2.length_le
  have l3 := h3.length_le
  have l4 := h4.length_le
  have length : x4.length = source.length + x5.length := by rw [hs,List.length_append]; rfl
  refine ⟨parseExpression_of_outcome ?_,?_⟩
  · -- What follows the source joins the tail that the cut leaves out.
    have whole : Reads (x5 ++ v) (rules n).expression source.units e [] := by
      rw [hs] at h5
      simpa [Reads] using h5
    have nothing : Ends 7 [] := Nat.lt_succ_self 7
    exact (agree_rules n _).expression (Nat.lt_succ_self _) whole nothing
  · show source.length ≤ t.length
    omega

theorem sources_of_parseAssignments {t : Text} {as : List Assignment} (h : parseAssignments t = .ok as) :
    ∀ a ∈ as, parseExpression a.source = .ok a.expression ∧ a.source.length ≤ t.length := by
  simp only [parseAssignments,runAll_eq_ok,← reads_nil,reads_bind,reads_pure] at h
  obtain ⟨_,x1,h1,head,x2,h2,rest,x3,h3,_,x4,-,_,x5,-,rfl,-⟩ := h
  have l1 := h1.length_le
  have l2 := h2.length_le
  have step {x y : List CodeUnit} {as : List Assignment} (hx : x.length ≤ t.length)
      (h : Many (Reads [] (do separator; assignment (rulesFor t))) x as y) :
      ∀ a ∈ as, parseExpression a.source = .ok a.expression ∧ a.source.length ≤ t.length := by
    induction h with
    | nil =>
      intro a ha
      cases ha
    | cons h _ ih =>
      have l := h.length_le
      obtain ⟨_,z,hz,h⟩ := reads_bind.mp h
      have lz := hz.length_le
      obtain ⟨same,le⟩ := source_of_assignment h
      exact List.forall_mem_cons.mpr ⟨⟨same,by omega⟩,ih (by omega)⟩
  obtain ⟨same,le⟩ := source_of_assignment h2
  have length : t.units.length = t.length := rfl
  exact List.forall_mem_cons.mpr ⟨⟨same,by omega⟩,step (by omega) (reads_many.mp h3).1⟩

/-! ## The limit on the length -/

theorem guardLength_ok {limit : Number} {s t : Text} (le : s.length ≤ t.length)
    (h : Expression.guardLength limit t = .ok t) : Expression.guardLength limit s = .ok s := by
  unfold Expression.guardLength at h ⊢
  split at h
  · cases h
  · next ht => rw [if_neg fun hs => ht (Number.order_ofNat_mono le hs)]

/-- An assignment's source reads as the assignment's expression, and keeps every limit on the length
that the whole text keeps. -/
theorem parseExpression_source {t : Text} {as : List Assignment} (h : parseAssignments t = .ok as) {a : Assignment}
    (ha : a ∈ as) : parseExpression a.source = .ok a.expression ∧ ∀ limit : Number,
      Expression.guardLength limit t = .ok t → Expression.guardLength limit a.source = .ok a.source := by
  obtain ⟨same,le⟩ := sources_of_parseAssignments h a ha
  exact ⟨same,fun _ => guardLength_ok le⟩

theorem exists_assignment {t s : Text} {sources : List Text}
    (h : (parseAssignments t).toOption.map (List.map Assignment.source) = some sources) (hs : s ∈ sources) :
    ∃ as a, parseAssignments t = .ok as ∧ a ∈ as ∧ a.source = s := by
  cases ht : parseAssignments t with
  | error n => rw [ht] at h; cases h
  | ok as =>
    rw [ht] at h
    cases h
    obtain ⟨a,ha,e⟩ := List.mem_map.mp hs
    exact ⟨as,a,rfl,ha,e⟩

theorem parseExpression_source_list : ∃ as a, parseAssignments "a = b; c.0 = [d]" = .ok as ∧ a ∈ as ∧
    a.source = "[d]" ∧ parseExpression a.source = .ok a.expression ∧
      Expression.guardLength (.ofNat 16) "a = b; c.0 = [d]" = .ok "a = b; c.0 = [d]" ∧
        Expression.guardLength (.ofNat 16) a.source = .ok a.source := by
  obtain ⟨as,a,h,ha,e⟩ := @exists_assignment "a = b; c.0 = [d]" "[d]" ["b","[d]"]
    (by decide +kernel) (by decide)
  obtain ⟨same,short⟩ := parseExpression_source h ha
  have fits : Expression.guardLength (.ofNat 16) "a = b; c.0 = [d]" = .ok "a = b; c.0 = [d]" :=
    if_neg (by decide +kernel)
  exact ⟨as,a,h,ha,e,same,fits,short _ fits⟩

end ConfTree.Grammar
