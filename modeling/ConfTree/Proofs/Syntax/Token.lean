import Mathlib.Data.List.DropRight
import ConfTree.Expr.Grammar
import ConfTree.Proofs.Syntax.Outcome

/-!
# Tokens before a tail

What a token makes of a text is settled by the text it takes: a token that was taken where more text
followed is taken the same way where the text ends earlier (`Local`). For a choice between tokens
that is so because what was refused stays refused when the text ends earlier (`Persistent`).
-/
namespace ConfTree.Reader

variable {α β : Type} {v t w : List CodeUnit}

/-- A reader that takes the same when the text after what it takes ends earlier. -/
class Local (r : Reader α) : Prop where
  cut : ∀ {v t a w}, Reads v r t a w → outcome r t = some (a,w)

/-- A reader that refuses a text whose continuation it refuses. -/
class Persistent (r : Reader α) : Prop where
  cut : ∀ {v t}, Refuses r (t ++ v) → Refuses r t

/-- A reader that never fails. -/
class Total (r : Reader α) : Prop where
  not_refuses : ∀ t, ¬ Refuses r t

instance (r : Reader α) [Total r] : Persistent r := ⟨fun h => (Total.not_refuses _ h).elim⟩

instance (a : α) : Total (pure a : Reader α) := ⟨fun _ => nofun⟩

instance (r : Reader α) : Total (maybe r) := ⟨fun t h => by rw [Refuses,outcome_maybe] at h; cases h⟩

instance (p : CodeUnit → Bool) : Total (unitsOf p) := ⟨fun t h => by rw [Refuses,outcome_unitsOf] at h; cases h⟩

theorem refuses_bind {r : Reader α} {f : α → Reader β} [∀ a, Steady (f a)] :
    Refuses (r >>= f) t ↔ Refuses r t ∨ ∃ a w, outcome r t = some (a,w) ∧ Refuses (f a) w := by
  simp only [Refuses,outcome_bind]
  cases outcome r t with
  | none => simp
  | some x => simp [Prod.ext_iff]

theorem Refuses.bind {r : Reader α} (h : Refuses r t) (f : α → Reader β) : Refuses (r >>= f) t :=
  outcome_bind_none f h

theorem refuses_discard {r : Reader α} : Refuses (discard r) t ↔ Refuses r t := by
  simp [Refuses,outcome_discard]

theorem refuses_map {r : Reader α} {g : α → β} : Refuses (g <$> r) t ↔ Refuses r t := by
  simp [Refuses,outcome_map]

theorem refuses_orElse {r s : Reader α} [Steady s] : Refuses (orElse r s) t ↔ Refuses r t ∧ Refuses s t := by
  simp [Refuses,outcome_orElse]

theorem refuses_withSource {r : Reader α} [Steady r] : Refuses (withSource r) t ↔ Refuses r t := by
  simp [Refuses,outcome_withSource]

theorem refuses_unitOf {p : CodeUnit → Bool} : Refuses (unitOf p) t ↔ ¬ t.head?.any p := by
  rw [Refuses,outcome_unitOf]
  cases t <;> simp

theorem refuses_unit {u : CodeUnit} : Refuses (unit u) t ↔ t.head? ≠ some u := by
  rw [unit,refuses_discard,refuses_unitOf]
  cases t <;> simp

theorem head?_ne {c u : CodeUnit} {x : List CodeUnit} (h : u ≠ c) : (u :: x).head? ≠ some c :=
  fun e => h (Option.some.inj e)

theorem unit_refuses_cons {c u : CodeUnit} {x : List CodeUnit} (h : u ≠ c) : Refuses (unit c) (u :: x) :=
  refuses_unit.mpr (head?_ne h)

theorem refuses_literal {s : Text} : Refuses (literal s) t ↔ ¬ s.units <+: t := by
  simp [Refuses,outcome_literal]

instance (r : Reader α) (f : α → Reader β) [Total r] [∀ a, Steady (f a)] [∀ a, Total (f a)] : Total (r >>= f) where
  not_refuses t h := by
    rcases refuses_bind.mp h with h | ⟨a,w,-,h⟩
    · exact Total.not_refuses t h
    · exact Total.not_refuses w h

instance (r s : Reader α) [Steady s] [Total s] : Total (orElse r s) :=
  ⟨fun t h => Total.not_refuses t (refuses_orElse.mp h).2⟩

instance (r : Reader α) [Total r] : Total (discard r) := ⟨fun t h => Total.not_refuses t (refuses_discard.mp h)⟩

/-! ## What stays refused -/

instance (p : CodeUnit → Bool) : Persistent (unitOf p) where
  cut {v t} h := by
    rw [refuses_unitOf] at h ⊢
    cases t with
    | nil => simp
    | cons => exact h

instance (s : Text) : Persistent (literal s) where
  cut {v t} h := by
    rw [refuses_literal] at h ⊢
    exact fun hs => h (hs.trans (List.prefix_append t v))

instance (r : Reader α) [Persistent r] : Persistent (discard r) where
  cut h := refuses_discard.mpr (Persistent.cut (refuses_discard.mp h))

instance (g : α → β) (r : Reader α) [Persistent r] : Persistent (g <$> r) where
  cut h := refuses_map.mpr (Persistent.cut (refuses_map.mp h))

instance (u : CodeUnit) : Persistent (unit u) := by unfold unit; infer_instance

instance (r s : Reader α) [Steady s] [Persistent r] [Persistent s] : Persistent (orElse r s) where
  cut h := by
    rw [refuses_orElse] at h ⊢
    exact h.imp Persistent.cut Persistent.cut

instance (r : Reader α) (f : α → Reader β) [Persistent r] [∀ a, Steady (f a)] [∀ a, Total (f a)] :
    Persistent (r >>= f) where
  cut h := by
    rw [refuses_bind] at h ⊢
    rcases h with h | ⟨a,w,-,h⟩
    · exact .inl (Persistent.cut h)
    · exact (Total.not_refuses w h).elim

instance (p : CodeUnit → Bool) (f : CodeUnit → Reader β) [∀ a, Steady (f a)] [∀ a, Persistent (f a)] :
    Persistent (unitOf p >>= f) where
  cut {v t} h := by
    rw [refuses_bind] at h ⊢
    rcases h with h | ⟨a,w,h1,h2⟩
    · exact .inl (Persistent.cut h)
    · cases t with
      | nil => exact .inl rfl
      | cons u x =>
        obtain ⟨e,ha⟩ := reads_unitOf.mp (reads_nil.mpr h1)
        cases e
        exact .inr ⟨a,x,by simp [outcome_unitOf,ha],Persistent.cut h2⟩

instance (p : CodeUnit → Bool) (f : Unit → Reader β) [∀ a, Steady (f a)] [∀ a, Persistent (f a)] :
    Persistent (discard (unitOf p) >>= f) := by
  have h : (discard (unitOf p) >>= f) = unitOf p >>= fun _ => f () := bind_map_left ..
  rw [h]
  infer_instance

instance (u : CodeUnit) (f : Unit → Reader β) [∀ a, Steady (f a)] [∀ a, Persistent (f a)] :
    Persistent (unit u >>= f) := by unfold unit; infer_instance

/-- A sign before something that takes a unit may be missing at the end of the text too. -/
instance (p : CodeUnit → Bool) (r : Reader β) [Steady r] [Persistent r] [Consuming r] :
    Persistent (discard (maybe (unitOf p)) >>= fun _ => r) where
  cut {v t} h := by
    have key (t : List CodeUnit) : Refuses (discard (maybe (unitOf p)) >>= fun _ => r) t ↔
        Refuses r (if t.head?.any p then t.tail else t) := by
      simp only [Refuses,outcome_bind,outcome_discard,outcome_maybe,outcome_unitOf]
      cases t with
      | nil => rfl
      | cons u x => cases hu : p u <;> simp [hu]
    rw [key] at h ⊢
    cases t with
    | nil => exact Option.eq_none_iff_forall_ne_some.mpr fun _ hx => absurd (Consuming.length_lt hx) (Nat.not_lt_zero _)
    | cons u x =>
      cases hu : p u <;> simp [hu] at h ⊢ <;> exact Persistent.cut h

/-! ## What is taken the same way -/

instance (a : α) : Local (pure a : Reader α) where
  cut h := reads_nil.mp (reads_pure.mpr (reads_pure.mp h))

instance : Local (giveUp : Reader α) where
  cut h := (reads_giveUp h).elim

instance (p : CodeUnit → Bool) : Local (unitOf p) where
  cut h := reads_nil.mp (reads_unitOf.mpr (reads_unitOf.mp h))

instance (s : Text) : Local (literal s) where
  cut h := reads_nil.mp (reads_literal.mpr (reads_literal.mp h))

theorem head?_cut {p : CodeUnit → Bool} (h : ¬ (w ++ v).head?.any p) : ¬ (w ++ []).head?.any p := by
  cases w with
  | nil => simp
  | cons => exact h

instance (p : CodeUnit → Bool) : Local (unitsOf p) where
  cut h := by
    obtain ⟨h1,h2,h3⟩ := reads_unitsOf.mp h
    exact reads_nil.mp (reads_unitsOf.mpr ⟨h1,h2,head?_cut h3⟩)

instance (p : CodeUnit → Bool) : Local (notAhead p) where
  cut h := by
    obtain ⟨h1,h2⟩ := reads_notAhead.mp h
    exact reads_nil.mp (reads_notAhead.mpr ⟨h1,head?_cut h2⟩)

instance (r : Reader α) (f : α → Reader β) [Local r] [∀ a, Steady (f a)] [∀ a, Local (f a)] : Local (r >>= f) where
  cut h := by
    obtain ⟨a,x,h1,h2⟩ := reads_bind.mp h
    rw [outcome_bind,Local.cut h1]
    exact Local.cut h2

instance (g : α → β) (r : Reader α) [Local r] : Local (g <$> r) where
  cut h := by
    obtain ⟨a,ha,rfl⟩ := reads_map.mp h
    rw [outcome_map,Local.cut ha,Option.map_some]

instance (r : Reader α) [Local r] : Local (discard r) := inferInstanceAs (Local ((fun _ => ()) <$> r))

instance (r s : Reader α) [Steady s] [Local r] [Persistent r] [Local s] : Local (orElse r s) where
  cut h := by
    rw [outcome_orElse]
    rcases reads_orElse.mp h with h | ⟨hr,h⟩
    · rw [Local.cut h,Option.some_or]
    · rw [show outcome r _ = none from Persistent.cut hr,Option.none_or,Local.cut h]

instance (r : Reader α) [Local r] [Persistent r] : Local (maybe r) := by unfold maybe; infer_instance

instance (u : CodeUnit) : Local (unit u) := by unfold unit; infer_instance

instance (r : Reader α) [Steady r] [Local r] : Local (withSource r) where
  cut {v t a w} h := by
    obtain ⟨a,source⟩ := a
    obtain ⟨h1,h2⟩ := reads_withSource.mp h
    exact reads_nil.mp (reads_withSource.mpr ⟨reads_nil.mpr (Local.cut h1),h2⟩)

instance (r : Reader α) [Steady r] [Consuming r] [Local r] [Persistent r] : Local (many r) where
  cut h := by
    obtain ⟨h1,h2⟩ := reads_many.mp h
    refine outcome_many.mpr ⟨?_,Persistent.cut h2⟩
    clear h h2
    induction h1 with
    | nil => exact .nil _
    | cons h _ ih => exact .cons (Local.cut h) ih

instance (c : Prop) [Decidable c] (r s : Reader α) [Steady r] [Steady s] : Steady (if c then r else s) := by
  split <;> infer_instance

instance (c : Prop) [Decidable c] (r s : Reader α) [Local r] [Local s] : Local (if c then r else s) := by
  split <;> infer_instance

instance (c : Prop) [Decidable c] (r s : Reader α) [Total r] [Total s] : Total (if c then r else s) := by
  split <;> infer_instance

end ConfTree.Reader

namespace ConfTree.Token

open Reader

instance : Steady blanks := by unfold blanks; infer_instance
instance : Local blanks := by unfold blanks; infer_instance
instance : Total blanks := by unfold blanks; infer_instance

instance {α : Type} (r : Reader α) [Steady r] : Steady (afterBlanks r) := by unfold afterBlanks; infer_instance
instance {α : Type} (r : Reader α) [Steady r] [Local r] : Local (afterBlanks r) := by
  unfold afterBlanks; infer_instance

instance (s : Text) : Steady (word s) := by unfold word; infer_instance
instance (s : Text) : Local (word s) := by unfold word; infer_instance

instance : Steady digits := by unfold digits; infer_instance
instance : Local digits := by unfold digits units1Of; infer_instance
instance : Persistent digits := by unfold digits units1Of; infer_instance
instance : Consuming digits := by unfold digits units1Of; infer_instance

instance : Steady exponent := by unfold exponent; infer_instance
instance : Persistent exponent := by unfold exponent; infer_instance
instance : Local exponent := by unfold exponent; infer_instance

instance : Steady fraction := by unfold fraction; infer_instance
instance : Persistent fraction := by unfold fraction; infer_instance
instance : Local fraction := by unfold fraction; infer_instance

instance : Steady number := by unfold number; infer_instance
set_option synthInstance.maxSize 1000 in
instance : Local number := by unfold number; infer_instance

instance : Steady hexUnit := by unfold hexUnit; infer_instance
instance : Local hexUnit := by unfold hexUnit; infer_instance
instance : Persistent hexUnit := by unfold hexUnit; infer_instance

instance : Steady escaped := by unfold escaped; infer_instance
instance : Local escaped := by unfold escaped; infer_instance
instance : Persistent escaped := by unfold escaped; infer_instance

instance (q : CodeUnit) : Steady (quotedUnit q) := by unfold quotedUnit; infer_instance
instance (q : CodeUnit) : Consuming (quotedUnit q) := by unfold quotedUnit; infer_instance
instance (q : CodeUnit) : Local (quotedUnit q) := by unfold quotedUnit; infer_instance
instance (q : CodeUnit) : Persistent (quotedUnit q) := by unfold quotedUnit; infer_instance
instance (q : CodeUnit) : Steady (quotedBy q) := by unfold quotedBy; infer_instance
instance (q : CodeUnit) : Local (quotedBy q) := by unfold quotedBy; infer_instance
instance : Steady quoted := by unfold quoted; infer_instance

theorem quotedBy_head {q : CodeUnit} {v t w : List CodeUnit} {a : Text} (h : Reads v (quotedBy q) t a w) :
    ∃ x, t = q :: x := by
  obtain ⟨a,x,h,-⟩ := reads_bind.mp h
  exact ⟨x,reads_unit.mp h⟩

theorem quotedBy_refuses {q : CodeUnit} {t : List CodeUnit} (h : t.head? ≠ some q) : Refuses (quotedBy q) t :=
  refuses_bind.mpr (.inl (refuses_unit.mpr h))

instance : Local quoted where
  cut h := by
    rw [quoted,outcome_orElse]
    rcases reads_orElse.mp h with h | ⟨-,h⟩
    · rw [Local.cut h,Option.some_or]
    · obtain ⟨x,rfl⟩ := quotedBy_head h
      rw [show outcome (quotedBy '"') _ = none from quotedBy_refuses (by simp; decide),Option.none_or,Local.cut h]

/-! ## Blanks, names, words and numbers -/

/-- A text without the blanks it starts with. -/
def skip (t : List CodeUnit) : List CodeUnit := t.dropWhile isSpace

theorem outcome_blanks (t : List CodeUnit) : outcome blanks t = some ((),skip t) := by
  rw [blanks,outcome_discard,outcome_unitsOf]; rfl

theorem skip_of_reads {v t w : List CodeUnit} {b : Unit} (h : Reads v blanks t b w) : skip t = w := by
  have := Local.cut h
  rw [outcome_blanks] at this
  cases this
  rfl

theorem skip_skip (t : List CodeUnit) : skip (skip t) = skip t := List.dropWhile_idempotent _ _

theorem skip_cons {u : CodeUnit} {t : List CodeUnit} (h : isSpace u = false) : skip (u :: t) = u :: t := by
  simp [skip,h]

/-- A name: a letter or underscore, then letters, underscores and digits; not a keyword. -/
def isName (name : Text) : Bool :=
  !keywords.contains name && match name.units with
    | u :: x => u.startsName && x.all CodeUnit.inName
    | [] => false

/-- A name before it is looked up among the keywords. -/
def plainName : Reader Text := do
  let first ← unitOf CodeUnit.startsName
  let rest ← unitsOf CodeUnit.inName
  return ⟨first :: rest⟩

instance : Steady plainName := by unfold plainName; infer_instance

theorem run_identifier (c : Cursor) (n : Nat) : (identifier c).run n =
    if keywords.contains ⟨c.rest.takeWhile CodeUnit.inName⟩ then (none,n) else (plainName c).run n := by
  have h : (identifier c).run n =
      ((if keywords.contains ⟨c.rest.takeWhile CodeUnit.inName⟩ then do giveUp; plainName
        else plainName : Reader Text) c).run n := by
    unfold identifier
    rw [run_bind]
    rfl
  rw [h]
  split <;> rfl

theorem outcome_identifier (t : List CodeUnit) : outcome identifier t =
    if keywords.contains ⟨t.takeWhile CodeUnit.inName⟩ then none else outcome plainName t := by
  rw [outcome,run_identifier]
  split <;> rfl

instance : Steady identifier where
  run_eq p t n := by
    rw [run_identifier,outcome_identifier]
    split
    · rfl
    · exact Steady.run_eq ..
  isSuffix {t _ _} h := by
    rw [outcome_identifier,Option.ite_none_left_eq_some] at h
    exact Steady.isSuffix h.2

theorem takeWhile_of_run {p : CodeUnit → Bool} {x w : List CodeUnit} (hx : ∀ u ∈ x, p u) (hw : ¬ w.head?.any p) :
    (x ++ w).takeWhile p = x := by
  rw [List.takeWhile_append_of_pos hx]
  cases w with
  | nil => simp
  | cons u w => simp at hw; simp [hw]

theorem inName_of_startsName {u : CodeUnit} (h : u.startsName) : u.inName := by simp [CodeUnit.inName,h]

theorem reads_identifier {v t w : List CodeUnit} {name : Text} :
    Reads v identifier t name w ↔ t = name.units ++ w ∧ isName name ∧ ¬ (w ++ v).head?.any CodeUnit.inName := by
  have plain : Reads v plainName t name w ↔ t = name.units ++ w ∧
      (∃ u x, name.units = u :: x ∧ u.startsName ∧ ∀ c ∈ x, c.inName) ∧ ¬ (w ++ v).head?.any CodeUnit.inName := by
    simp only [plainName,reads_bind,reads_unitOf,reads_unitsOf,reads_pure]
    constructor
    · rintro ⟨u,_,⟨rfl,hu⟩,x,_,⟨rfl,hx,hw⟩,rfl,rfl⟩
      exact ⟨rfl,⟨u,x,rfl,hu,hx⟩,hw⟩
    · rintro ⟨rfl,⟨u,x,hn,hu,hx⟩,hw⟩
      obtain ⟨units⟩ := name
      cases hn
      exact ⟨u,x ++ w,⟨rfl,hu⟩,x,w,⟨rfl,hx,hw⟩,rfl,rfl⟩
  have run (h : Reads v plainName t name w) : (t ++ v).takeWhile CodeUnit.inName = name.units := by
    obtain ⟨rfl,⟨u,x,hn,hu,hx⟩,hw⟩ := plain.mp h
    rw [List.append_assoc]
    exact takeWhile_of_run (by rw [hn]; exact List.forall_mem_cons.mpr ⟨inName_of_startsName hu,hx⟩) hw
  have name_iff : isName name ↔ ¬ keywords.contains name ∧
      ∃ u x, name.units = u :: x ∧ u.startsName ∧ ∀ c ∈ x, c.inName := by
    rw [isName]
    cases name.units <;> simp
  constructor
  · intro h
    rw [Reads,outcome_identifier,Option.ite_none_left_eq_some] at h
    obtain ⟨hk,h⟩ := h
    rw [run h] at hk
    obtain ⟨ht,hn,hw⟩ := plain.mp h
    exact ⟨ht,name_iff.mpr ⟨hk,hn⟩,hw⟩
  · rintro ⟨ht,hn,hw⟩
    obtain ⟨hk,hn⟩ := name_iff.mp hn
    have h := plain.mpr ⟨ht,hn,hw⟩
    rw [Reads,outcome_identifier,run h,if_neg hk]
    exact h

instance : Local identifier where
  cut h := by
    obtain ⟨ht,hn,hw⟩ := reads_identifier.mp h
    exact reads_nil.mp (reads_identifier.mpr ⟨ht,hn,head?_cut hw⟩)

theorem identifier_refuses {t : List CodeUnit} (h : ¬ t.head?.any CodeUnit.startsName) : Refuses identifier t := by
  rw [Refuses,outcome_identifier]
  split
  · rfl
  · exact refuses_bind.mpr (.inl (refuses_unitOf.mpr h))

theorem reads_word {v t w : List CodeUnit} {s : Text} {b : Unit} :
    Reads v (word s) t b w ↔ t = s.units ++ w ∧ ¬ (w ++ v).head?.any CodeUnit.inName := by
  simp only [word,reads_bind,reads_literal,reads_notAhead]
  constructor
  · rintro ⟨-,x,rfl,rfl,h⟩
    exact ⟨rfl,h⟩
  · rintro ⟨rfl,h⟩
    exact ⟨(),w,rfl,rfl,h⟩

theorem word_refuses {s : Text} {c : CodeUnit} {x t : List CodeUnit} (hs : s.units = c :: x) (h : t.head? ≠ some c) :
    Refuses (word s) t := by
  refine refuses_bind.mpr (.inl (refuses_literal.mpr ?_))
  rw [hs]
  rintro ⟨y,rfl⟩
  exact h rfl

theorem digits_refuses {t : List CodeUnit} (h : ¬ t.head?.any CodeUnit.isDigit) : Refuses digits t :=
  refuses_bind.mpr (.inl (refuses_unitOf.mpr h))

theorem number_refuses {t : List CodeUnit} (digit : ¬ t.head?.any CodeUnit.isDigit)
    (point : ∀ x, t = CodeUnit.ofChar '.' :: x → ¬ x.head?.any CodeUnit.isDigit) : Refuses number t := by
  have whole := digits_refuses digit
  refine refuses_bind.mpr (.inl (refuses_withSource.mpr (refuses_orElse.mpr ⟨?_,?_⟩)))
  · exact refuses_bind.mpr (.inl (refuses_discard.mpr whole))
  · by_cases dot : t.head? = some '.'
    · obtain ⟨x,rfl⟩ : ∃ x, t = CodeUnit.ofChar '.' :: x := by
        cases t with
        | nil => cases dot
        | cons u x => cases dot; exact ⟨x,rfl⟩
      refine refuses_bind.mpr (.inr ⟨(),x,reads_nil.mp (reads_unit.mpr rfl),?_⟩)
      exact refuses_bind.mpr (.inl (refuses_discard.mpr (digits_refuses (point x rfl))))
    · exact refuses_bind.mpr (.inl (refuses_unit.mpr dot))

end ConfTree.Token
