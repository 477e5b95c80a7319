import Mathlib.Data.List.TakeDrop
import Mathlib.Data.List.TakeWhile
import ConfTree.Expr.Reader

/-!
# What a reader makes of a text

The notes that a reader leaves, and the position it starts from, have no part in what it reads: a
`Steady` reader is a function from texts to results (`outcome`), and each way of putting readers
together is a way of putting outcomes together.
-/
namespace ConfTree.Reader

variable {α β : Type}

/-! ## Runs -/

theorem run_bind (r : Reader α) (f : α → Reader β) (c : Cursor) (n : Nat) :
    ((r >>= f) c).run n = match (r c).run n with
      | (some x,m) => (f x.1 x.2).run m
      | (none,m) => (none,m) := by
  simp only [Bind.bind,StateT.bind,OptionT.bind,OptionT.mk,OptionT.run]
  generalize r c n = y
  rcases y with ⟨_ | x,m⟩ <;> rfl

theorem run_orElse (r s : Reader α) (c : Cursor) (n : Nat) :
    (orElse r s c).run n = match (r c).run n with
      | (some x,m) => (some x,m)
      | (none,m) => (s c).run m := by
  simp only [orElse,Bind.bind,StateT.bind,OptionT.mk,OptionT.run]
  generalize r c n = y
  rcases y with ⟨_ | x,m⟩ <;> rfl

/-! ## Outcomes -/

/-- What a reader makes of a text: a result and the rest, or nothing. -/
def outcome (r : Reader α) (t : List CodeUnit) : Option (α × List CodeUnit) :=
  ((r ⟨0,t⟩).run 0).1.map fun x => (x.1,x.2.rest)

/-- The cursor that a reader leaves when it starts at a position. -/
def place (p : Nat) (t : List CodeUnit) (x : α × List CodeUnit) : α × Cursor :=
  (x.1,⟨p + (t.length - x.2.length),x.2⟩)

/-- A reader whose result depends on nothing but the text, and that takes a part of it from its start. -/
class Steady (r : Reader α) : Prop where
  run_eq : ∀ p t n, ((r ⟨p,t⟩).run n).1 = (outcome r t).map (place p t)
  isSuffix : ∀ {t a w}, outcome r t = some (a,w) → w <:+ t

theorem Steady.length_le {r : Reader α} [Steady r] {t w : List CodeUnit} {a : α}
    (h : outcome r t = some (a,w)) : w.length ≤ t.length := (Steady.isSuffix h).length_le

theorem outcome_of_run {r : Reader α} [Steady r] {p n : Nat} {t : List CodeUnit} :
    ((r ⟨p,t⟩).run n).1.map (fun x => (x.1,x.2.rest)) = outcome r t := by
  rw [Steady.run_eq]
  cases outcome r t <;> rfl

theorem outcome_bind (r : Reader α) (f : α → Reader β) [∀ a, Steady (f a)] (t : List CodeUnit) :
    outcome (r >>= f) t = (outcome r t).bind fun x => outcome (f x.1) x.2 := by
  unfold outcome
  rw [run_bind]
  rcases hr : (r ⟨0,t⟩).run 0 with ⟨_ | ⟨a,p,w⟩,m⟩
  · rfl
  · exact outcome_of_run (r := f a)

/-- What is refused at the start is refused. -/
theorem outcome_bind_none {r : Reader α} (f : α → Reader β) {t : List CodeUnit} (h : outcome r t = none) :
    outcome (r >>= f) t = none := by
  unfold outcome at h ⊢
  rw [run_bind]
  rcases hr : (r ⟨0,t⟩).run 0 with ⟨_ | x,m⟩
  · rfl
  · rw [hr] at h; cases h

theorem outcome_pure (a : α) (t : List CodeUnit) : outcome (pure a) t = some (a,t) := rfl

theorem outcome_giveUp (t : List CodeUnit) : outcome (giveUp : Reader α) t = none := rfl

theorem outcome_orElse (r s : Reader α) [Steady s] (t : List CodeUnit) :
    outcome (orElse r s) t = (outcome r t).or (outcome s t) := by
  unfold outcome
  rw [run_orElse]
  rcases hr : (r ⟨0,t⟩).run 0 with ⟨_ | ⟨a,p,w⟩,m⟩
  · exact outcome_of_run (r := s)
  · rfl

instance (a : α) : Steady (pure a : Reader α) where
  run_eq p t n := by simp [outcome_pure,place]; rfl
  isSuffix h := by simp only [outcome_pure,Option.some.injEq,Prod.mk.injEq] at h; exact h.2 ▸ List.suffix_rfl

instance : Steady (giveUp : Reader α) where
  run_eq _ _ _ := rfl
  isSuffix h := nomatch h

theorem Steady.bind {r : Reader α} {f : α → Reader β} (_ : Steady r) (_ : ∀ a, Steady (f a)) : Steady (r >>= f) where
  run_eq p t n := by
    rw [run_bind,outcome_bind]
    have h := Steady.run_eq (r := r) p t n
    rcases hr : (r ⟨p,t⟩).run n with ⟨o,m⟩
    rw [hr] at h
    cases ho : outcome r t with
    | none => rw [ho] at h; cases h; rfl
    | some x =>
      obtain ⟨a,w⟩ := x
      rw [ho] at h
      cases h
      have le := Steady.length_le ho
      simp only [place,Steady.run_eq,Option.bind_some]
      cases hf : outcome (f a) w with
      | none => rfl
      | some y =>
        have le' := Steady.length_le hf
        simp only [Option.map_some,place,Option.some.injEq,Prod.mk.injEq,true_and,Cursor.mk.injEq,
          and_true]
        omega
  isSuffix h := by
    rw [outcome_bind] at h
    obtain ⟨⟨a,w⟩,h1,h2⟩ := Option.bind_eq_some_iff.mp h
    exact (Steady.isSuffix h2).trans (Steady.isSuffix h1)

instance (r : Reader α) (f : α → Reader β) [Steady r] [∀ a, Steady (f a)] : Steady (r >>= f) :=
  .bind inferInstance inferInstance

instance (r s : Reader α) [Steady r] [Steady s] : Steady (orElse r s) where
  run_eq p t n := by
    rw [run_orElse,outcome_orElse]
    have h := Steady.run_eq (r := r) p t n
    rcases hr : (r ⟨p,t⟩).run n with ⟨o,m⟩
    rw [hr] at h
    cases ho : outcome r t with
    | none => rw [ho] at h; cases h; exact Steady.run_eq ..
    | some x => rw [ho] at h; cases h; rfl
  isSuffix h := by
    rw [outcome_orElse] at h
    rcases Option.or_eq_some_iff.mp h with h | ⟨-,h⟩
    · exact Steady.isSuffix h
    · exact Steady.isSuffix h

instance (g : α → β) (r : Reader α) [Steady r] : Steady (g <$> r) := by
  rw [map_eq_pure_bind]; infer_instance

theorem outcome_map (g : α → β) (r : Reader α) (t : List CodeUnit) :
    outcome (g <$> r) t = (outcome r t).map fun x => (g x.1,x.2) := by
  rw [map_eq_pure_bind,outcome_bind]
  cases outcome r t <;> rfl

instance (r : Reader α) [Steady r] : Steady (discard r) :=
  inferInstanceAs (Steady ((fun _ => ()) <$> r))

theorem outcome_discard (r : Reader α) (t : List CodeUnit) :
    outcome (discard r) t = (outcome r t).map fun x => ((),x.2) := outcome_map _ r t

instance (r : Reader α) [Steady r] : Steady (maybe r) := by unfold maybe; infer_instance

theorem outcome_maybe (r : Reader α) (t : List CodeUnit) :
    outcome (maybe r) t = some (match outcome r t with
      | some (a,w) => (some a,w)
      | none => (none,t)) := by
  rw [maybe,outcome_orElse,outcome_map]
  cases outcome r t <;> rfl

theorem run_unitOf (p : CodeUnit → Bool) (q n : Nat) (t : List CodeUnit) :
    ((unitOf p ⟨q,t⟩).run n).1 = match t with
      | u :: w => if p u then some (u,⟨q + 1,w⟩) else none
      | [] => none := by
  cases t with
  | nil => rfl
  | cons u w => cases h : p u <;> simp only [unitOf,h] <;> rfl

theorem outcome_unitOf (p : CodeUnit → Bool) (t : List CodeUnit) :
    outcome (unitOf p) t = match t with
      | u :: w => if p u then some (u,w) else none
      | [] => none := by
  rw [outcome,run_unitOf]
  cases t with
  | nil => rfl
  | cons u w => cases h : p u <;> simp [h]

instance (p : CodeUnit → Bool) : Steady (unitOf p) where
  run_eq q t n := by
    rw [run_unitOf,outcome_unitOf]
    cases t with
    | nil => rfl
    | cons u w => cases h : p u <;> simp [place]
  isSuffix {t _ _} h := by
    rw [outcome_unitOf] at h
    cases t with
    | nil => cases h
    | cons u w =>
      simp only [Option.ite_none_right_eq_some,Option.some.injEq,Prod.mk.injEq] at h
      exact h.2.2 ▸ List.suffix_cons u w

instance (u : CodeUnit) : Steady (unit u) := by unfold unit; infer_instance

theorem outcome_unit (u : CodeUnit) (t : List CodeUnit) :
    outcome (unit u) t = match t with
      | c :: w => if c = u then some ((),w) else none
      | [] => none := by
  rw [unit,outcome_discard,outcome_unitOf]
  cases t with
  | nil => rfl
  | cons c w => by_cases h : c = u <;> simp [h]

theorem outcome_unit_self (u : CodeUnit) (w : List CodeUnit) : outcome (unit u) (u :: w) = some ((),w) := by
  simp [outcome_unit]

theorem run_literal (s : Text) (q n : Nat) (t : List CodeUnit) :
    ((literal s ⟨q,t⟩).run n).1 =
      if s.units <+: t then some ((),⟨q + s.length,t.drop s.length⟩) else none := by
  by_cases h : s.units <+: t
  · simp only [literal,List.isPrefixOf_iff_prefix,h,if_true]; rfl
  · simp only [literal,List.isPrefixOf_iff_prefix,h,if_false]; rfl

theorem outcome_literal (s : Text) (t : List CodeUnit) :
    outcome (literal s) t = if s.units <+: t then some ((),t.drop s.length) else none := by
  rw [outcome,run_literal]
  split <;> rfl

instance (s : Text) : Steady (literal s) where
  run_eq q t n := by
    rw [run_literal,outcome_literal]
    split
    · next h =>
      have := h.length_le
      simp only [Option.map_some,place,List.length_drop,Option.some.injEq,Prod.mk.injEq,true_and,
        Cursor.mk.injEq,and_true]
      unfold Text.length
      omega
    · rfl
  isSuffix {t _ _} h := by
    rw [outcome_literal,Option.ite_none_right_eq_some] at h
    obtain ⟨-,h⟩ := h
    cases h
    exact List.drop_suffix ..

theorem run_unitsOf (p : CodeUnit → Bool) (q n : Nat) (t : List CodeUnit) :
    ((unitsOf p ⟨q,t⟩).run n).1 =
      some (t.takeWhile p,⟨q + (t.takeWhile p).length,t.dropWhile p⟩) := by
  have h : ((unitsOf p ⟨q,t⟩).run n).1 =
      some ((t.span p).1,(⟨q + (t.span p).1.length,(t.span p).2⟩ : Cursor)) := rfl
  rw [h,List.span_eq_takeWhile_dropWhile]

theorem outcome_unitsOf (p : CodeUnit → Bool) (t : List CodeUnit) :
    outcome (unitsOf p) t = some (t.takeWhile p,t.dropWhile p) := by
  rw [outcome,run_unitsOf,Option.map_some]

instance (p : CodeUnit → Bool) : Steady (unitsOf p) where
  run_eq q t n := by
    have h := congrArg List.length (List.takeWhile_append_dropWhile (p := p) (l := t))
    rw [List.length_append] at h
    rw [run_unitsOf,outcome_unitsOf,Option.map_some,place,← h,Nat.add_sub_cancel]
  isSuffix h := by
    rw [outcome_unitsOf] at h
    cases h
    exact List.dropWhile_suffix _

instance (p : CodeUnit → Bool) : Steady (units1Of p) := by unfold units1Of; infer_instance

theorem run_notAhead (p : CodeUnit → Bool) (c : Cursor) (n : Nat) :
    ((notAhead p c).run n).1 = if c.rest.head?.any p then none else some ((),c) := by
  have h : ((notAhead p c).run n).1 = (((if (match c.rest with
      | u :: _ => p u
      | [] => false) then giveUp else pure ()) : Reader Unit) c |>.run n).1 := rfl
  rcases c with ⟨q,_ | ⟨u,w⟩⟩
  · rfl
  · rw [h]; cases hu : p u <;> simp [hu] <;> rfl

theorem outcome_notAhead (p : CodeUnit → Bool) (t : List CodeUnit) :
    outcome (notAhead p) t = if t.head?.any p then none else some ((),t) := by
  rw [outcome,run_notAhead]
  split <;> rfl

instance (p : CodeUnit → Bool) : Steady (notAhead p) where
  run_eq q t n := by
    rw [run_notAhead,outcome_notAhead]
    split
    · rfl
    · simp [place]
  isSuffix h := by
    rw [outcome_notAhead,Option.ite_none_left_eq_some] at h
    obtain ⟨-,h⟩ := h
    cases h
    exact List.suffix_rfl

theorem steady_manyUpTo (r : Reader α) [Steady r] (n : Nat) : Steady (manyUpTo r n) := by
  induction n with
  | zero => exact inferInstanceAs (Steady (pure []))
  | succ n ih =>
    refine Steady.bind inferInstance fun o => ?_
    cases o <;> infer_instance

instance (r : Reader α) [Steady r] : Steady (many r) where
  run_eq p t n := have := steady_manyUpTo r t.length; Steady.run_eq (r := manyUpTo r t.length) p t n
  isSuffix {t _ _} h := have := steady_manyUpTo r t.length; Steady.isSuffix (r := manyUpTo r t.length) h

theorem run_withSource (r : Reader α) (c : Cursor) (n : Nat) :
    ((withSource r c).run n).1 = ((r c).run n).1.map fun x =>
      ((x.1,(⟨c.rest.take (x.2.position - c.position)⟩ : Text)),x.2) := by
  have h : withSource r c = (r >>= fun a c' => pure ((a,⟨c.rest.take (c'.position - c.position)⟩),c')) c := rfl
  rw [h,run_bind]
  rcases (r c).run n with ⟨_ | x,m⟩ <;> rfl

theorem outcome_withSource (r : Reader α) [Steady r] (t : List CodeUnit) :
    outcome (withSource r) t = (outcome r t).map fun x => ((x.1,⟨t.take (t.length - x.2.length)⟩),x.2) := by
  rw [outcome,run_withSource,Steady.run_eq]
  cases outcome r t with
  | none => rfl
  | some x => simp [place]

instance (r : Reader α) [Steady r] : Steady (withSource r) where
  run_eq p t n := by
    rw [run_withSource,Steady.run_eq,outcome_withSource]
    cases outcome r t with
    | none => rfl
    | some x => simp [place]
  isSuffix {t _ _} h := by
    rw [outcome_withSource] at h
    obtain ⟨⟨a,w⟩,h1,h2⟩ := Option.map_eq_some_iff.mp h
    cases h2
    exact Steady.isSuffix h1

theorem outcome_maybe_bind (r : Reader α) (f : Option α → Reader β) [∀ a, Steady (f (some a))] [Steady (f none)]
    (t : List CodeUnit) : outcome (maybe r >>= f) t = match outcome r t with
      | some (a,w) => outcome (f (some a)) w
      | none => outcome (f none) t := by
  have (o : Option α) : Steady (f o) := by cases o <;> infer_instance
  rw [outcome_bind,outcome_maybe]
  cases outcome r t <;> rfl

instance (priority := low) (r : Reader α) (f : Option α → Reader β) [Steady r] [∀ a, Steady (f (some a))] [Steady (f none)] :
    Steady (maybe r >>= f) :=
  .bind inferInstance fun o => by cases o <;> infer_instance

/-! ## Reading before a tail -/

/-- The reader takes `a` from `t` and leaves `w` where the text goes on with `v` after both. -/
def Reads (v : List CodeUnit) (r : Reader α) (t : List CodeUnit) (a : α) (w : List CodeUnit) : Prop :=
  outcome r (t ++ v) = some (a,w ++ v)

/-- The reader takes nothing from a text. -/
def Refuses (r : Reader α) (t : List CodeUnit) : Prop := outcome r t = none

section

variable {v t w : List CodeUnit}

theorem reads_nil {r : Reader α} {a : α} : Reads [] r t a w ↔ outcome r t = some (a,w) := by
  simp [Reads]

theorem Reads.outcome_eq {r : Reader α} {a : α} (h : Reads v r t a w) :
    outcome r (t ++ v) = some (a,w ++ v) := h

theorem Reads.isSuffix {r : Reader α} [Steady r] {a : α} (h : Reads v r t a w) : w <:+ t := by
  obtain ⟨x,hx⟩ := Steady.isSuffix h
  exact ⟨x,List.append_cancel_right (by rwa [List.append_assoc])⟩

theorem Reads.length_le {r : Reader α} [Steady r] {a : α} (h : Reads v r t a w) : w.length ≤ t.length :=
  h.isSuffix.length_le

theorem not_refuses_iff {r : Reader α} : ¬ Refuses r t ↔ ∃ a w, Reads [] r t a w := by
  simp [Refuses,reads_nil,Option.eq_none_iff_forall_ne_some]

theorem Reads.not_refuses {r : Reader α} {a : α} (h : Reads v r t a w) : ¬ Refuses r (t ++ v) := by
  simp [Refuses,h.outcome_eq]

theorem reads_pure {a b : α} : Reads v (pure a) t b w ↔ a = b ∧ t = w := by
  simp [Reads,outcome_pure]

theorem reads_giveUp {a : α} : ¬ Reads v (giveUp : Reader α) t a w := by
  simp [Reads,outcome_giveUp]

theorem reads_bind {r : Reader α} {f : α → Reader β} [∀ a, Steady (f a)] {b : β} :
    Reads v (r >>= f) t b w ↔ ∃ a x, Reads v r t a x ∧ Reads v (f a) x b w := by
  simp only [Reads,outcome_bind]
  rw [Option.bind_eq_some_iff]
  constructor
  · rintro ⟨⟨a,x⟩,h1,h2⟩
    obtain ⟨y,rfl⟩ := (List.suffix_append w v).trans (Steady.isSuffix h2)
    exact ⟨a,y,h1,h2⟩
  · rintro ⟨a,x,h1,h2⟩
    exact ⟨(a,x ++ v),h1,h2⟩

theorem reads_map {g : α → β} {r : Reader α} {b : β} :
    Reads v (g <$> r) t b w ↔ ∃ a, Reads v r t a w ∧ g a = b := by
  simp only [Reads,outcome_map,Option.map_eq_some_iff,Prod.mk.injEq]
  constructor
  · rintro ⟨⟨a,x⟩,h,rfl,rfl⟩
    exact ⟨a,h,rfl⟩
  · rintro ⟨a,h,rfl⟩
    exact ⟨(a,w ++ v),h,rfl,rfl⟩

theorem reads_discard {r : Reader α} {b : Unit} :
    Reads v (discard r) t b w ↔ ∃ a, Reads v r t a w := by
  change Reads v ((fun _ => ()) <$> r) t b w ↔ _
  simp [reads_map]

theorem reads_orElse {r s : Reader α} [Steady s] {a : α} :
    Reads v (orElse r s) t a w ↔ Reads v r t a w ∨ Refuses r (t ++ v) ∧ Reads v s t a w := by
  simp only [Reads,Refuses,outcome_orElse,Option.or_eq_some_iff]

theorem reads_maybe {r : Reader α} {o : Option α} :
    Reads v (maybe r) t o w ↔
      (∃ a, o = some a ∧ Reads v r t a w) ∨ o = none ∧ w = t ∧ Refuses r (t ++ v) := by
  simp only [Reads,Refuses,outcome_maybe]
  cases h : outcome r (t ++ v) with
  | none => simp [eq_comm]
  | some x => simp [Prod.ext_iff,eq_comm]

theorem reads_maybe_bind {r : Reader α} {f : Option α → Reader β} [∀ a, Steady (f (some a))] [Steady (f none)] {b : β} :
    Reads v (maybe r >>= f) t b w ↔
      (∃ a x, Reads v r t a x ∧ Reads v (f (some a)) x b w) ∨ Refuses r (t ++ v) ∧ Reads v (f none) t b w := by
  have (o : Option α) : Steady (f o) := by cases o <;> infer_instance
  rw [reads_bind]
  constructor
  · rintro ⟨o,x,h1,h2⟩
    rcases reads_maybe.mp h1 with ⟨a,rfl,hr⟩ | ⟨rfl,rfl,hr⟩
    · exact .inl ⟨a,x,hr,h2⟩
    · exact .inr ⟨hr,h2⟩
  · rintro (⟨a,x,h1,h2⟩ | ⟨h1,h2⟩)
    · exact ⟨some a,x,reads_maybe.mpr (.inl ⟨a,rfl,h1⟩),h2⟩
    · exact ⟨none,t,reads_maybe.mpr (.inr ⟨rfl,rfl,h1⟩),h2⟩

theorem reads_unitOf {p : CodeUnit → Bool} {u : CodeUnit} :
    Reads v (unitOf p) t u w ↔ t = u :: w ∧ p u := by
  simp only [Reads,outcome_unitOf]
  constructor
  · intro h
    split at h
    · next u' w' e =>
      simp only [Option.ite_none_right_eq_some,Option.some.injEq,Prod.mk.injEq] at h
      obtain ⟨hu,rfl,rfl⟩ := h
      exact ⟨List.append_cancel_right (by simpa using e),hu⟩
    · cases h
  · rintro ⟨rfl,h⟩
    simp [h]

theorem reads_unit {u : CodeUnit} {b : Unit} : Reads v (unit u) t b w ↔ t = u :: w := by
  simp [unit,reads_discard,reads_unitOf]

theorem reads_literal {s : Text} {b : Unit} : Reads v (literal s) t b w ↔ t = s.units ++ w := by
  simp only [Reads,outcome_literal,Option.ite_none_right_eq_some,Option.some.injEq,Prod.mk.injEq,
    true_and]
  constructor
  · rintro ⟨⟨x,hx⟩,hw⟩
    rw [← hx,Text.length,List.drop_left] at hw
    subst hw
    exact List.append_cancel_right (by simpa using hx.symm)
  · rintro rfl
    exact ⟨⟨w ++ v,by simp⟩,by simp [Text.length]⟩

theorem reads_unitsOf {p : CodeUnit → Bool} {us : List CodeUnit} :
    Reads v (unitsOf p) t us w ↔ t = us ++ w ∧ (∀ u ∈ us, p u) ∧ ¬ (w ++ v).head?.any p := by
  simp only [Reads,outcome_unitsOf,Option.some.injEq,Prod.mk.injEq]
  constructor
  · rintro ⟨h1,h2⟩
    have h := List.takeWhile_append_dropWhile (p := p) (l := t ++ v)
    rw [h1,h2,← List.append_assoc] at h
    refine ⟨(List.append_cancel_right h).symm,?_,?_⟩
    · rw [← h1]
      exact fun u => List.mem_takeWhile_imp
    · rw [← h2]
      have := List.head?_dropWhile_not p (t ++ v)
      cases hd : ((t ++ v).dropWhile p).head? with
      | none => simp
      | some u => rw [hd] at this; simp at this; simp [this]
  · rintro ⟨rfl,h1,h2⟩
    rw [List.append_assoc,List.takeWhile_append_of_pos h1,List.dropWhile_append_of_pos h1]
    cases hw : w ++ v with
    | nil => simp
    | cons u x => rw [hw] at h2; simp at h2; simp [h2]

theorem reads_notAhead {p : CodeUnit → Bool} {b : Unit} :
    Reads v (notAhead p) t b w ↔ w = t ∧ ¬ (t ++ v).head?.any p := by
  simp only [Reads,outcome_notAhead,Option.ite_none_left_eq_some,Option.some.injEq,Prod.mk.injEq,true_and,
    List.append_cancel_right_eq]
  rw [and_comm,eq_comm]

theorem reads_withSource {r : Reader α} [Steady r] {a : α} {source : Text} :
    Reads v (withSource r) t (a,source) w ↔ Reads v r t a w ∧ t = source.units ++ w := by
  have key (h : Reads v r t a w) :
      (⟨(t ++ v).take ((t ++ v).length - (w ++ v).length)⟩ : Text) = source ↔ t = source.units ++ w := by
    obtain ⟨x,rfl⟩ := h.isSuffix
    rw [show (x ++ w ++ v).length - (w ++ v).length = x.length by simp,List.append_assoc,
      List.take_left,List.append_cancel_right_eq]
    constructor
    · rintro rfl; rfl
    · rintro rfl; rfl
  constructor
  · intro h
    rw [Reads,outcome_withSource,Option.map_eq_some_iff] at h
    obtain ⟨⟨a',w'⟩,h,e⟩ := h
    simp only [Prod.mk.injEq] at e
    obtain ⟨⟨rfl,hs⟩,rfl⟩ := e
    exact ⟨h,(key h).mp hs⟩
  · rintro ⟨h,hs⟩
    rw [Reads,outcome_withSource,h.outcome_eq,Option.map_some,(key h).mpr hs]

/-! ## Repetition -/

/-- A reader that takes a unit at least. -/
class Consuming (r : Reader α) : Prop where
  length_lt : ∀ {t a w}, outcome r t = some (a,w) → w.length < t.length

instance (p : CodeUnit → Bool) : Consuming (unitOf p) where
  length_lt {t a w} h := by
    rw [← reads_nil,reads_unitOf] at h
    simp [h.1]

instance (r : Reader α) [Consuming r] : Consuming (discard r) where
  length_lt {t a w} h := by
    rw [← reads_nil,reads_discard] at h
    obtain ⟨a,h⟩ := h
    exact Consuming.length_lt (reads_nil.mp h)

instance (g : α → β) (r : Reader α) [Consuming r] : Consuming (g <$> r) where
  length_lt {t a w} h := by
    rw [← reads_nil,reads_map] at h
    obtain ⟨a,h,-⟩ := h
    exact Consuming.length_lt (reads_nil.mp h)

instance (u : CodeUnit) : Consuming (unit u) := by unfold unit; infer_instance

instance (r s : Reader α) [Steady s] [Consuming r] [Consuming s] : Consuming (orElse r s) where
  length_lt {t a w} h := by
    rw [← reads_nil,reads_orElse] at h
    rcases h with h | ⟨-,h⟩
    · exact Consuming.length_lt (reads_nil.mp h)
    · exact Consuming.length_lt (reads_nil.mp h)

instance (r : Reader α) (f : α → Reader β) [Consuming r] [∀ a, Steady (f a)] : Consuming (r >>= f) where
  length_lt {t b w} h := by
    rw [← reads_nil,reads_bind] at h
    obtain ⟨a,x,h1,h2⟩ := h
    exact Nat.lt_of_le_of_lt h2.length_le (Consuming.length_lt (reads_nil.mp h1))

instance (r : Reader α) (f : α → Reader β) [Steady r] [∀ a, Steady (f a)] [∀ a, Consuming (f a)] :
    Consuming (r >>= f) where
  length_lt {t b w} h := by
    rw [← reads_nil,reads_bind] at h
    obtain ⟨a,x,h1,h2⟩ := h
    exact Nat.lt_of_lt_of_le (Consuming.length_lt (reads_nil.mp h2)) h1.length_le

theorem consuming_literal {s : Text} (h : s.units ≠ []) : Consuming (literal s) where
  length_lt {t a w} ht := by
    rw [← reads_nil,reads_literal] at ht
    rw [ht,List.length_append]
    have := List.length_pos_iff.mpr h
    omega

end

/-- Steps one after another. -/
inductive Many (step : List CodeUnit → α → List CodeUnit → Prop) :
    List CodeUnit → List α → List CodeUnit → Prop
  | nil (t) : Many step t [] t
  | cons {t a x as w} : step t a x → Many step x as w → Many step t (a :: as) w

theorem Many.isSuffix {step : List CodeUnit → α → List CodeUnit → Prop} {t w : List CodeUnit} {as : List α}
    (h : Many step t as w) (hs : ∀ {t a w}, step t a w → w <:+ t) : w <:+ t := by
  induction h with
  | nil => exact List.suffix_rfl
  | cons h _ ih => exact ih.trans (hs h)

section

variable {r : Reader α} [Steady r] {v t w : List CodeUnit} {as : List α}

theorem outcome_manyUpTo_succ (n : Nat) (t : List CodeUnit) :
    outcome (manyUpTo r (n + 1)) t = match outcome r t with
      | some (a,x) => (outcome (manyUpTo r n) x).map fun y => (a :: y.1,y.2)
      | none => some ([],t) := by
  have := steady_manyUpTo r n
  rw [manyUpTo,outcome_maybe_bind]
  cases outcome r t with
  | none => rfl
  | some x => simp only [outcome_bind,outcome_pure]; cases outcome (manyUpTo r n) x.2 <;> rfl

/-- Fuel for each unit is enough. -/
theorem outcome_manyUpTo [Consuming r] {n : Nat} (hn : t.length ≤ n) :
    outcome (manyUpTo r n) t = some (as,w) ↔
      Many (fun t a w => outcome r t = some (a,w)) t as w ∧ Refuses r w := by
  induction n generalizing t as with
  | zero =>
    obtain rfl : t = [] := List.length_eq_zero_iff.mp (Nat.le_zero.mp hn)
    have none {a x} : outcome r [] ≠ some (a,x) := fun h => absurd (Consuming.length_lt h) (Nat.not_lt_zero _)
    have refuses : Refuses r [] := Option.eq_none_iff_forall_ne_some.mpr fun _ => none
    rw [manyUpTo,outcome_pure,Option.some.injEq,Prod.mk.injEq]
    constructor
    · rintro ⟨rfl,rfl⟩
      exact ⟨.nil [],refuses⟩
    · rintro ⟨h,-⟩
      cases h with
      | nil => exact ⟨rfl,rfl⟩
      | cons h => exact (none h).elim
  | succ n ih =>
    rw [outcome_manyUpTo_succ]
    cases ht : outcome r t with
    | none =>
      simp only [Option.some.injEq,Prod.mk.injEq]
      constructor
      · rintro ⟨rfl,rfl⟩
        exact ⟨.nil t,ht⟩
      · rintro ⟨h,-⟩
        cases h with
        | nil => exact ⟨rfl,rfl⟩
        | cons h => rw [ht] at h; cases h
    | some y =>
      obtain ⟨a,x⟩ := y
      have hx : x.length ≤ n := by have := Consuming.length_lt ht; omega
      simp only [Option.map_eq_some_iff,Prod.mk.injEq]
      constructor
      · rintro ⟨⟨bs,w'⟩,h,rfl,rfl⟩
        obtain ⟨h,hw⟩ := (ih hx).mp h
        exact ⟨.cons ht h,hw⟩
      · rintro ⟨h,hw⟩
        cases h with
        | nil => rw [Refuses,ht] at hw; cases hw
        | cons h1 h2 =>
          rw [ht] at h1
          cases h1
          exact ⟨_,(ih hx).mpr ⟨h2,hw⟩,rfl,rfl⟩

theorem outcome_many [Consuming r] :
    outcome (many r) t = some (as,w) ↔
      Many (fun t a w => outcome r t = some (a,w)) t as w ∧ Refuses r w :=
  outcome_manyUpTo (Nat.le_refl _)

theorem reads_many [Consuming r] :
    Reads v (many r) t as w ↔ Many (Reads v r) t as w ∧ Refuses r (w ++ v) := by
  rw [Reads,outcome_many,and_congr_left_iff]
  intro refuses
  clear refuses
  constructor
  · generalize hs : t ++ v = s
    generalize hx : w ++ v = x
    intro h
    induction h generalizing t with
    | nil =>
      obtain rfl : t = w := List.append_cancel_right (hs.trans hx.symm)
      exact .nil t
    | cons h1 h2 ih =>
      subst hs hx
      obtain ⟨y,rfl⟩ := (List.suffix_append w v).trans (h2.isSuffix Steady.isSuffix)
      exact .cons h1 (ih rfl rfl)
  · intro h
    induction h with
    | nil => exact .nil _
    | cons h1 _ ih => exact .cons h1 ih

end

end ConfTree.Reader
