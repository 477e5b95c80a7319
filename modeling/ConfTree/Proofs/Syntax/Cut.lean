import ConfTree.Proofs.Syntax.Primary

/-!
# Cutting a text where a rule ends

What a rule takes from the start of a text it also takes when the text ends right there. A rule that
went on as far as it could may stop earlier only where nothing goes on (`Ends`); a choice that fell on
a later alternative falls on it again, as the first unit of what follows rules the earlier ones out.
-/
namespace ConfTree.Grammar

open Reader Token

set_option synthInstance.maxSize 3000

variable {α β : Type} {v t w : List CodeUnit} {m : Nat}

/-- What the first reader takes of a text of fewer than `m` units, the second takes when the text
ends where the first one stopped at the latest, given what is `good` to stop before. -/
def Cuts (m : Nat) (good : List CodeUnit → Prop) (r r' : Reader α) : Prop :=
  ∀ ⦃v t a w⦄, t.length < m → Reads v r t a w → good w → outcome r' t = some (a,w)

theorem Cuts.mono {good good' : List CodeUnit → Prop} {r r' : Reader α} (h : Cuts m good r r')
    (hg : ∀ {w}, good' w → good w) : Cuts m good' r r' := fun _ _ _ _ ht hr hw => h ht hr (hg hw)

theorem many_cut {good : List CodeUnit → Prop} {r r' : Reader α} [Steady r] [Consuming r] [Steady r'] [Consuming r']
    (step : Cuts m good r r') (start : ∀ {v t a w}, Reads v r t a w → good t) {as : List α} (ht : t.length < m)
    (h : Reads v (many r) t as w) (good_w : good w) (stop : Refuses r' w) :
    outcome (many r') t = some (as,w) ∧ good t := by
  replace h := (reads_many.mp h).1
  rw [outcome_many]
  induction h with
  | nil => exact ⟨⟨.nil _,stop⟩,good_w⟩
  | cons h1 _ ih =>
    have := h1.length_le
    obtain ⟨⟨h2,-⟩,good_x⟩ := ih (by omega) good_w stop
    exact ⟨⟨.cons (step ht h1 good_x) h2,stop⟩,start h1⟩

section

variable {ω : Type} {k : Nat} {op : Reader ω} {u u' : Reader Expr} [Steady op] [Steady u] [Steady u']

theorem operand_cut [Local op] (h : Cuts m (Ends k) u u') : Cuts m (Ends k) (operand op u) (operand op u') := by
  intro v t a w ht hr hw
  simp only [operand,reads_bind,reads_pure] at hr
  obtain ⟨_,x1,h1,b,x2,h2,_,x3,h3,e,x4,h4,rfl,rfl⟩ := hr
  have l1 := h1.length_le
  have l2 := h2.length_le
  have l3 := h3.length_le
  simp [operand,outcome_bind,outcome_map,Local.cut h1,Local.cut h2,Local.cut h3,h (by omega) h4 hw]

theorem operand_start [Level (k + 1) op] {a : ω × Expr} (h : Reads v (operand op u) t a w) : Ends k t := by
  simp only [operand,reads_bind,reads_pure] at h
  obtain ⟨_,x1,h1,b,x2,h2,-⟩ := h
  rw [Ends,skip_of_reads h1,Level.rank_eq h2]
  exact Nat.lt_succ_self k

variable [Level (k + 1) op] [Consuming op] [Local op]

/-- Operands and the operators between them, cut. -/
theorem operands_cut (h : Cuts m (Ends k) u u') {head : Expr} {tail : List (ω × Expr)} {x : List CodeUnit}
    (ht : t.length < m) (h1 : Reads v u t head x) (h2 : Reads v (many (operand op u)) x tail w)
    (hw : Ends (k + 1) w) :
    outcome u' t = some (head,x) ∧ outcome (many (operand op u')) x = some (tail,w) := by
  have := h1.length_le
  obtain ⟨h2,hx⟩ := many_cut (operand_cut h) operand_start (by omega) h2 (hw.mono (Nat.le_succ k)) (operand_refuses hw)
  exact ⟨h ht h1 hx,h2⟩

theorem leftAssociative_cut (h : Cuts m (Ends k) u u') (join : ω → Expr → Expr → Expr) :
    Cuts m (Ends (k + 1)) (leftAssociative u op join) (leftAssociative u' op join) := by
  intro v t a w ht hr hw
  simp only [leftAssociative_eq,reads_bind,reads_pure] at hr ⊢
  obtain ⟨head,x,h1,tail,y,h2,rfl,rfl⟩ := hr
  obtain ⟨h1,h2⟩ := operands_cut h ht h1 h2 hw
  simp [outcome_bind,outcome_map,h1,h2]

end

section

variable {u u' : Reader Expr} [Steady u] [Steady u']

theorem additive_cut (h : Cuts m (Ends 1) u u') : Cuts m (Ends 3) (additive u) (additive u') := by
  have h2 : Cuts m (Ends 2) (multiplicative u) (multiplicative u') := by
    rw [multiplicative_eq,multiplicative_eq]
    exact leftAssociative_cut h .binary
  rw [additive_eq,additive_eq]
  exact leftAssociative_cut h2 .binary

theorem comparison_cut (h : Cuts m (Ends 1) u u') : Cuts m (Ends 4) (comparison u) (comparison u') := by
  intro v t a w ht hr hw
  simp only [comparison_eq,reads_bind,reads_pure] at hr ⊢
  obtain ⟨first,x,h1,rest,y,h2,rfl,rfl⟩ := hr
  obtain ⟨h1,h2⟩ := operands_cut (additive_cut h) ht h1 h2 hw
  simp [outcome_bind,outcome_map,h1,h2]

theorem logicalOr_cut (h : Cuts m (Ends 1) u u') : Cuts m (Ends 6) (logicalOr u) (logicalOr u') := by
  have h5 : Cuts m (Ends 5) (logicalAnd u) (logicalAnd u') := by
    rw [logicalAnd_eq,logicalAnd_eq]
    exact leftAssociative_cut (comparison_cut h) .logical
  rw [logicalOr_eq,logicalOr_eq]
  exact leftAssociative_cut h5 .logical

end

/-- The rules agree on texts of fewer than `m` units, cut. -/
structure Agree (m : Nat) (r r' : Rules) : Prop where
  expression : Cuts m (Ends 7) r.expression r'.expression
  unary : Cuts m (Ends 1) r.unary r'.unary

/-! ## Sequences, items and entries -/

/-- A closing bracket comes next. -/
def Closes (t : List CodeUnit) : Prop :=
  ∃ u x, skip t = u :: x ∧ (u = CodeUnit.ofChar ')' ∨ u = CodeUnit.ofChar ']' ∨ u = CodeUnit.ofChar '}')

/-- A comma or a closing bracket comes next. -/
def Stops (t : List CodeUnit) : Prop := Closes t ∨ ∃ x, skip t = CodeUnit.ofChar ',' :: x

theorem Stops.ends (h : Stops t) : Ends 7 t := by
  unfold Ends
  rcases h with ⟨u,x,e,rfl | rfl | rfl⟩ | ⟨x,e⟩ <;> rw [e] <;> exact Nat.lt_succ_self 7

theorem Stops.opens (h : Stops t) : opens (skip t) = false := by
  rcases h with ⟨u,x,e,rfl | rfl | rfl⟩ | ⟨x,e⟩ <;> rw [e] <;> rfl

theorem Closes.head_ne (h : Closes t) : (skip t).head? ≠ some (CodeUnit.ofChar ',') := by
  obtain ⟨u,x,e,hu⟩ := h
  rw [e]
  rcases hu with rfl | rfl | rfl <;> exact head?_ne (by decide)

instance : Local comma := by unfold comma; infer_instance
instance : Consuming comma := by unfold comma; infer_instance
instance (bracket : CodeUnit) : Local (close bracket) := by unfold close; infer_instance

theorem skip_of_comma {b : Unit} (h : Reads v comma t b w) : ∃ x, skip t = CodeUnit.ofChar ',' :: x ∧ skip x = w := by
  simp only [comma,reads_bind,reads_unit] at h
  obtain ⟨_,x1,h1,_,x2,rfl,h2⟩ := h
  exact ⟨x2,skip_of_reads h1,skip_of_reads h2⟩

theorem comma_refuses (h : (skip t).head? ≠ some (CodeUnit.ofChar ',')) : Refuses comma t :=
  refuses_bind.mpr (.inr ⟨(),_,outcome_blanks t,(refuses_unit.mpr h).bind _⟩)

theorem skip_of_afterBlanks_unit {c : CodeUnit} {b : Unit} (h : Reads v (afterBlanks (unit c)) t b w) :
    skip t = c :: w := by
  simp only [afterBlanks,reads_bind,reads_unit] at h
  obtain ⟨_,x1,h1,rfl⟩ := h
  exact skip_of_reads h1

theorem closes_of_close {b : Unit} {c : CodeUnit} (h : Reads v (close c) t b w)
    (hc : c = CodeUnit.ofChar ')' ∨ c = CodeUnit.ofChar ']' ∨ c = CodeUnit.ofChar '}') : Closes t :=
  ⟨c,w,skip_of_afterBlanks_unit h,hc⟩

section

variable {p p' : Reader α} [Steady p] [Steady p']

theorem more_stops {as : List α} (h : Reads v (more p) t as w) (hw : Closes w) : Stops t := by
  simp only [more,reads_bind,reads_pure,reads_discard,reads_maybe] at h
  obtain ⟨as,x,h1,_,_,⟨o,h2⟩,rfl,rfl⟩ := h
  cases (reads_many.mp h1).1 with
  | nil =>
    rcases h2 with ⟨_,-,h2⟩ | ⟨-,rfl,-⟩
    · exact .inr ⟨_,skip_of_afterBlanks_unit h2⟩
    · exact .inl hw
  | cons hs _ =>
    obtain ⟨_,x,hc,-⟩ := reads_bind.mp hs
    obtain ⟨y,hy,-⟩ := skip_of_comma hc
    exact .inr ⟨y,hy⟩

theorem more_cut (h : Cuts m Stops p p') (hp : ∀ {t}, Closes t → Refuses p' (skip t)) :
    Cuts m Closes (more p) (more p') := by
  intro v t as w ht hr hw
  simp only [more,reads_bind,reads_pure,reads_discard,reads_maybe] at hr
  obtain ⟨as,x,h1,_,_,⟨o,h2⟩,rfl,rfl⟩ := hr
  have step : Cuts m Stops (do comma; p) (do comma; p') := by
    intro v t a w ht hr hw
    obtain ⟨_,y,h1,h2⟩ := reads_bind.mp hr
    have := h1.length_le
    simp [outcome_bind,Local.cut h1,h (by omega) h2 hw]
  have start {v t a w} (hr : Reads v (do comma; p) t a w) : Stops t := by
    obtain ⟨_,y,h1,h2⟩ := reads_bind.mp hr
    obtain ⟨y,hy,-⟩ := skip_of_comma h1
    exact .inr ⟨y,hy⟩
  rcases h2 with ⟨_,rfl,h2⟩ | ⟨rfl,rfl,-⟩
  · have e := skip_of_afterBlanks_unit h2
    have stop : Refuses (do comma; p') x :=
      refuses_bind.mpr (.inr ⟨(),skip _,by simp [comma,outcome_bind,outcome_blanks,e,outcome_unit_self],hp hw⟩)
    have h1 := (many_cut step start ht h1 (.inr ⟨_,e⟩) stop).1
    simp [more,outcome_bind,outcome_map,outcome_discard,outcome_maybe,h1,Local.cut h2]
  · have stop : Refuses (do comma; p') _ := (comma_refuses hw.head_ne).bind _
    have none : outcome (afterBlanks (unit ',')) _ = none :=
      refuses_bind.mpr (.inr ⟨(),_,outcome_blanks _,refuses_unit.mpr hw.head_ne⟩)
    have h1 := (many_cut step start ht h1 (.inl hw) stop).1
    simp [more,outcome_bind,outcome_map,outcome_discard,outcome_maybe,h1,none]

theorem sequence_cut (h : Cuts m Stops p p') (hp : ∀ {t}, Closes t → Refuses p' (skip t)) :
    Cuts m Closes (sequence p) (sequence p') := by
  intro v t as w ht hr hw
  simp only [Grammar.sequence,reads_bind,reads_pure] at hr
  obtain ⟨a,x,h1,as,y,h2,rfl,rfl⟩ := hr
  have := h1.length_le
  simp [Grammar.sequence,outcome_bind,outcome_map,h ht h1 (more_stops h2 hw),more_cut h hp (by omega) h2 hw]

end

section

variable {r r' : Rules} [Apt r] [Apt r'] {u u' : Reader Expr} [Steady u] [Steady u']

theorem colonValue_ends {e : Expr} (h : Reads v (colonValue r) t e w) : Ends 7 t := by
  simp only [colonValue,reads_bind,reads_unit] at h
  obtain ⟨_,x1,h1,_,x2,rfl,-⟩ := h
  rw [Ends,skip_of_reads h1]
  exact Nat.lt_succ_self 7

theorem colonValue_cut (h : Agree m r r') : Cuts m (Ends 7) (colonValue r) (colonValue r') := by
  intro v t a w ht hr hw
  simp only [colonValue,reads_bind,reads_unit] at hr
  obtain ⟨_,x1,h1,_,x2,rfl,_,x3,h3,h4⟩ := hr
  have l1 := h1.length_le
  have l3 := h3.length_le
  have := Local.cut h1
  simp at l1
  simp [colonValue,outcome_bind,outcome_unit_self,Local.cut h1,Local.cut h3,h.expression (by omega) h4 hw]

theorem conditional_cut (h : Agree m r r') (hu : Cuts (m + 1) (Ends 1) u u') :
    Cuts (m + 1) (Ends 7) (conditional r u) (conditional r' u') := by
  intro v t a w ht hr hw
  simp only [conditional,reads_bind,reads_orElse,reads_unit,reads_pure] at hr
  obtain ⟨test,x,h1,⟨_,x1,h2,_,x2,rfl,_,x3,h3,consequent,x4,h4,alternate,x5,h5,rfl,rfl⟩ |
    ⟨-,rfl,rfl⟩⟩ := hr
  · have l1 := h1.length_le
    have l2 := h2.length_le
    have l3 := h3.length_le
    have l4 := h4.length_le
    simp at l2
    have test_ends : Ends 6 x := by
      rw [Ends,skip_of_reads h2]
      exact Nat.lt_succ_self 6
    have consequent_ends : Ends 7 x4 := colonValue_ends h5
    simp [conditional,outcome_bind,outcome_orElse,outcome_unit_self,outcome_map,logicalOr_cut hu ht h1 test_ends,
      Local.cut h2,Local.cut h3,h.expression (by omega) h4 consequent_ends,colonValue_cut h (by omega) h5 hw]
  · have branch : outcome (unit '?') (skip x) = none := hw.refuses (Nat.le_refl 7)
    simp [conditional,outcome_bind,outcome_orElse,outcome_pure,logicalOr_cut hu ht h1 (hw.mono (by decide)),outcome_blanks,branch]

theorem spread_cut (h : Agree m r r') : Cuts m (Ends 7) (spread r) (spread r') := by
  intro v t a w ht hr hw
  simp only [spread,reads_bind] at hr
  obtain ⟨_,x1,h1,_,x2,h2,h3⟩ := hr
  have l1 := h1.length_le
  have l2 := h2.length_le
  simp [spread,outcome_bind,Local.cut h1,Local.cut h2,h.expression (by omega) h3 hw]

theorem outcome_item {e : Expr} (h : outcome r.expression t = some (e,w)) :
    outcome (item r) t = some (.one e,w) := by
  simp [item,outcome_orElse,outcome_map,h,show outcome (spread r) t = none from spread_refuses (opens_of_outcome h)]

theorem item_cut (h : Agree m r r') : Cuts m (Ends 7) (item r) (item r') := by
  intro v t a w ht hr hw
  simp only [item,reads_orElse,reads_map] at hr
  rcases hr with ⟨e,h1,rfl⟩ | ⟨-,e,h1,rfl⟩
  · simp [item,outcome_orElse,outcome_map,spread_cut h ht h1 hw]
  · exact outcome_item (h.expression ht h1 hw)

omit [Apt r] in
theorem Stops.spread_refuses (h : Stops t) : Refuses (spread r) (skip t) := by
  apply spread_refuses_of_head
  rcases h with ⟨u,x,e,rfl | rfl | rfl⟩ | ⟨x,e⟩ <;> rw [e] <;>
    exact head?_ne (by decide)

theorem Stops.item_refuses (h : Stops t) : Refuses (item r) (skip t) :=
  refuses_orElse.mpr ⟨refuses_map.mpr h.spread_refuses,refuses_map.mpr (Apt.expression_refuses h.opens)⟩

theorem Stops.entry_refuses (h : Stops t) : Refuses (entry r) (skip t) :=
  refuses_orElse.mpr ⟨refuses_map.mpr h.spread_refuses,(Apt.expression_refuses h.opens).bind _⟩

theorem outcome_entry {key value : Expr} {x : List CodeUnit} (h1 : outcome r.expression t = some (key,x))
    (h2 : outcome (colonValue r) x = some (value,w)) : outcome (entry r) t = some (.pair key value,w) := by
  have : outcome (spread r) t = none := spread_refuses (opens_of_outcome h1)
  simp [entry,pair,outcome_orElse,outcome_bind,outcome_map,this,h1,h2]

theorem entry_cut (h : Agree m r r') : Cuts m (Ends 7) (entry r) (entry r') := by
  intro v t a w ht hr hw
  simp only [entry,pair,reads_orElse,reads_map,reads_bind,reads_pure] at hr
  rcases hr with ⟨e,h1,rfl⟩ | ⟨-,key,x,h1,value,y,h2,rfl,rfl⟩
  · simp [entry,outcome_orElse,outcome_map,spread_cut h ht h1 hw]
  · have := h1.length_le
    exact outcome_entry (h.expression ht h1 (colonValue_ends h2)) (colonValue_cut h (by omega) h2 hw)

/-! ## Comprehensions and displays -/

/-- The names between `for` and `in`. -/
def names : Reader (List Text) := do
  let head ← identifier
  return head :: (← many (do comma; identifier))

theorem targets_eq : targets = orElse (do unit '('; blanks; let all ← names; close ')'; return all) names := rfl

instance : Steady names := by unfold names; infer_instance

/-- No comma comes next. -/
def NoComma (t : List CodeUnit) : Prop := (skip t).head? ≠ some (CodeUnit.ofChar ',')

theorem names_cut {ns : List Text} (hr : Reads v names t ns w) (hw : NoComma w) :
    outcome names t = some (ns,w) := by
  simp only [names,reads_bind,reads_pure] at hr
  obtain ⟨head,x,h1,rest,y,h2,rfl,rfl⟩ := hr
  have h2 := (many_cut (show Cuts _ (fun _ => True) _ _ from fun _ _ _ _ _ h _ => Local.cut h) (fun _ => trivial)
    (Nat.lt_succ_self x.length) h2 trivial ((comma_refuses hw).bind _)).1
  simp [names,outcome_bind,outcome_map,Local.cut h1,h2]

theorem names_head {ns : List Text} (h : Reads v names t ns w) : ∃ u x, t = u :: x ∧ u.startsName := by
  obtain ⟨head,x,h,-⟩ := reads_bind.mp h
  obtain ⟨rfl,hn,-⟩ := reads_identifier.mp h
  obtain ⟨_ | ⟨u,y⟩⟩ := head
  · simp [isName] at hn
  · exact ⟨u,y ++ x,rfl,by simp_all [isName]⟩

theorem targets_cut {ns : List Text} (hr : Reads v targets t ns w) (hw : NoComma w) :
    outcome targets t = some (ns,w) := by
  simp only [targets_eq,reads_orElse,reads_bind,reads_unit,reads_pure] at hr
  rcases hr with ⟨_,x1,rfl,_,x2,h2,all,x3,h3,_,x4,h4,rfl,rfl⟩ | ⟨-,h1⟩
  · have closes := closes_of_close h4 (.inl rfl)
    simp [targets_eq,outcome_orElse,outcome_bind,outcome_map,outcome_unit_self,Local.cut h2,
      names_cut h3 closes.head_ne,Local.cut h4]
  · obtain ⟨u,x,rfl,hu⟩ := names_head h1
    have bracket : outcome (unit '(') (u :: x) = none := refuses_unit.mpr fun e => by
      cases e
      exact absurd hu (by decide)
    simp [targets_eq,outcome_orElse,outcome_bind,bracket,names_cut h1 hw]

theorem eachClause_cut (hu : Cuts m (Ends 1) u u') : Cuts m (Ends 6) (eachClause u) (eachClause u') := by
  intro v t a w ht hr hw
  simp only [eachClause,reads_bind,reads_pure] at hr
  obtain ⟨_,x1,h1,_,x2,h2,all,x3,h3,_,x4,h4,_,x5,h5,_,x6,h6,e,x7,h7,rfl,rfl⟩ := hr
  have l1 := h1.length_le
  have l2 := h2.length_le
  have l3 := h3.length_le
  have l4 := h4.length_le
  have l5 := h5.length_le
  have l6 := h6.length_le
  have comma : NoComma x3 := by
    rw [NoComma,skip_of_reads h4,(reads_word.mp h5).1]
    exact head?_ne (by decide)
  simp [eachClause,outcome_bind,outcome_map,Local.cut h1,Local.cut h2,targets_cut h3 comma,
    Local.cut h4,Local.cut h5,Local.cut h6,logicalOr_cut hu (by omega) h7 hw]

theorem whenClause_cut (hu : Cuts m (Ends 1) u u') : Cuts m (Ends 6) (whenClause u) (whenClause u') := by
  intro v t a w ht hr hw
  simp only [whenClause,reads_bind,reads_pure] at hr
  obtain ⟨_,x1,h1,_,x2,h2,e,x3,h3,rfl,rfl⟩ := hr
  have l1 := h1.length_le
  have l2 := h2.length_le
  simp [whenClause,outcome_bind,outcome_map,Local.cut h1,Local.cut h2,logicalOr_cut hu (by omega) h3 hw]

/-- A clause of a comprehension with the blanks before it. -/
def clause (u : Reader Expr) : Reader Clause := afterBlanks (orElse (eachClause u) (whenClause u))

theorem clauses_eq (u : Reader Expr) : clauses u = (do
    blanks
    let head ← eachClause u
    return head :: (← many (clause u))) := rfl

instance : Steady (clause u) := by unfold clause; infer_instance

instance : Consuming (clause u) := by
  have := consuming_literal (s := "for") (by decide)
  have := consuming_literal (s := "if") (by decide)
  have : Consuming (word "for") := by unfold word; infer_instance
  have : Consuming (word "if") := by unfold word; infer_instance
  have : Consuming (orElse (eachClause u) (whenClause u)) := by unfold eachClause whenClause; infer_instance
  unfold clause afterBlanks
  infer_instance

theorem eachClause_head {c : Clause} (h : Reads v (eachClause u) t c w) : ("for" : Text).units <+: t := by
  obtain ⟨_,x,h,-⟩ := reads_bind.mp h
  exact ⟨x,(reads_word.mp h).1.symm⟩

theorem whenClause_head {c : Clause} (h : Reads v (whenClause u) t c w) : ("if" : Text).units <+: t := by
  obtain ⟨_,x,h,-⟩ := reads_bind.mp h
  exact ⟨x,(reads_word.mp h).1.symm⟩

omit [Steady u] in
theorem eachClause_refuses (h : t.head? ≠ some (CodeUnit.ofChar 'f')) : Refuses (eachClause u) t :=
  (word_refuses rfl h).bind _

omit [Steady u] in
theorem whenClause_refuses (h : t.head? ≠ some (CodeUnit.ofChar 'i')) : Refuses (whenClause u) t :=
  (word_refuses rfl h).bind _

theorem clause_cut (hu : Cuts m (Ends 1) u u') : Cuts m (Ends 6) (clause u) (clause u') := by
  intro v t a w ht hr hw
  simp only [clause,afterBlanks,reads_bind,reads_orElse] at hr
  obtain ⟨_,x,h1,h2 | ⟨-,h2⟩⟩ := hr
  · have := h1.length_le
    simp [clause,afterBlanks,outcome_bind,outcome_orElse,Local.cut h1,eachClause_cut hu (by omega) h2 hw]
  · have := h1.length_le
    have each : outcome (eachClause u') x = none := by
      obtain ⟨y,rfl⟩ := whenClause_head h2
      exact eachClause_refuses (head?_ne (by decide))
    simp [clause,afterBlanks,outcome_bind,outcome_orElse,Local.cut h1,each,whenClause_cut hu (by omega) h2 hw]

theorem clause_start {c : Clause} (h : Reads v (clause u) t c w) : Ends 6 t := by
  simp only [clause,afterBlanks,reads_bind,reads_orElse] at h
  obtain ⟨_,x,h1,h2 | ⟨-,h2⟩⟩ := h
  · obtain ⟨y,rfl⟩ := eachClause_head h2
    rw [Ends,skip_of_reads h1]
    exact Nat.lt_of_lt_of_eq (by decide : 6 < 8) rfl
  · obtain ⟨y,rfl⟩ := whenClause_head h2
    rw [Ends,skip_of_reads h1]
    exact Nat.lt_of_lt_of_eq (by decide : 6 < 8) rfl

theorem Stops.clause_refuses (h : Stops t) : Refuses (clause u) t := by
  have head : (skip t).head? ≠ some (CodeUnit.ofChar 'f') ∧ (skip t).head? ≠ some (CodeUnit.ofChar 'i') := by
    rcases h with ⟨u,x,e,rfl | rfl | rfl⟩ | ⟨x,e⟩ <;> rw [e] <;>
      exact ⟨head?_ne (by decide),head?_ne (by decide)⟩
  exact refuses_bind.mpr (.inr ⟨(),_,outcome_blanks t,
    refuses_orElse.mpr ⟨eachClause_refuses head.1,whenClause_refuses head.2⟩⟩)

theorem Stops.clauses_refuses (h : Stops t) : Refuses (clauses u) t := by
  have head : (skip t).head? ≠ some (CodeUnit.ofChar 'f') := by
    rcases h with ⟨u,x,e,rfl | rfl | rfl⟩ | ⟨x,e⟩ <;> rw [e] <;>
      exact head?_ne (by decide)
  exact refuses_bind.mpr (.inr ⟨(),_,outcome_blanks t,(eachClause_refuses head).bind _⟩)

/-- A comprehension goes on with its clauses. -/
def Iterates (t : List CodeUnit) : Prop := ("for" : Text).units <+: skip t

theorem Iterates.ends (h : Iterates t) : Ends 7 t := by
  obtain ⟨x,e⟩ := h
  rw [Ends,← e]
  exact Nat.lt_succ_self 7

theorem clauses_start {cs : List Clause} (h : Reads v (clauses u) t cs w) : Iterates t := by
  simp only [clauses_eq,reads_bind] at h
  obtain ⟨_,x,h1,c,y,h2,-⟩ := h
  rw [Iterates,skip_of_reads h1]
  exact eachClause_head h2

theorem clauses_cut (hu : Cuts m (Ends 1) u u') : Cuts m Closes (clauses u) (clauses u') := by
  intro v t a w ht hr hw
  simp only [clauses_eq,reads_bind,reads_pure] at hr
  obtain ⟨_,x1,h1,c,x2,h2,cs,x3,h3,rfl,rfl⟩ := hr
  have l1 := h1.length_le
  have l2 := h2.length_le
  obtain ⟨h3,h6⟩ := many_cut (clause_cut hu) clause_start (by omega) h3 ((Stops.ends (.inl hw)).mono (by decide))
    (Stops.clause_refuses (.inl hw))
  simp [clauses_eq,outcome_bind,outcome_map,Local.cut h1,eachClause_cut hu (by omega) h2 h6,h3]

theorem colonValue_refuses (h : (skip t).head? ≠ some (CodeUnit.ofChar ':')) : Refuses (colonValue r) t :=
  refuses_bind.mpr (.inr ⟨(),_,outcome_blanks t,(refuses_unit.mpr h).bind _⟩)

/-- Three dots come next. -/
def Dots (t : List CodeUnit) : Prop := ∃ x, t = ("..." : Text).units ++ x

theorem Dots.opens (h : Dots t) : opens t = false := by
  obtain ⟨x,rfl⟩ := h
  rfl

theorem dots_of_spread {e : Expr} (h : Reads v (spread r) t e w) : Dots t := by
  simp only [spread,reads_bind,reads_literal] at h
  obtain ⟨_,x,h,-⟩ := h
  exact ⟨x,h⟩

/-- An item that is no expression is a spread. -/
theorem dots_of_item {i : Item} (h : Reads v (item r) t i w) (he : Refuses r.expression (t ++ v)) : Dots t := by
  simp only [item,reads_orElse,reads_map] at h
  rcases h with ⟨_,h,-⟩ | ⟨-,_,h,-⟩
  · exact dots_of_spread h
  · exact (h.not_refuses he).elim

theorem dots_of_entry {i : Entry} (h : Reads v (entry r) t i w) (he : Refuses r.expression (t ++ v)) : Dots t := by
  simp only [entry,pair,reads_orElse,reads_map,reads_bind] at h
  rcases h with ⟨_,h,-⟩ | ⟨-,_,_,h,-⟩
  · exact dots_of_spread h
  · exact (h.not_refuses he).elim

theorem skip_eq_of_reads {b : Unit} (h : Reads v blanks t b w) : skip w = w := by
  rw [← skip_of_reads h,skip_skip]

/-- A sequence of parts, or none where a closing bracket comes next. -/
theorem parts_cut {p p' : Reader α} [Steady p] [Steady p'] (h : Cuts m Stops p p')
    (hp : ∀ {t}, Closes t → Refuses p' (skip t)) {x : List CodeUnit} {o : Option (List α)} (ht : t.length < m)
    (hs : skip t = t) (hr : Reads v (maybe (sequence p)) t o x) (closes : Closes x) :
    outcome (maybe (sequence p')) t = some (o,x) := by
  rw [outcome_maybe]
  rcases reads_maybe.mp hr with ⟨as,rfl,h1⟩ | ⟨rfl,rfl,-⟩
  · rw [sequence_cut h hp ht h1 closes]
  · have none : outcome (sequence p') _ = none := Refuses.bind (hs ▸ hp closes) _
    rw [none]

theorem items_cut (h : Agree m r r') : Cuts m Stops (item r) (item r') := (item_cut h).mono Stops.ends

theorem items_refuse (h : Closes t) : Refuses (item r) (skip t) := Stops.item_refuses (.inl h)

/-- Where a sequence of items, or nothing before a closing bracket, starts with no expression. -/
theorem opens_of_items {o : Option (List Item)} {x : List CodeUnit} (hr : Reads v (maybe (sequence (item r))) t o x)
    (he : Refuses r.expression (t ++ v)) (hs : skip t = t) (closes : Closes x) : opens t = false := by
  rcases reads_maybe.mp hr with ⟨items,rfl,h1⟩ | ⟨rfl,rfl,-⟩
  · obtain ⟨i,y,h2,-⟩ := reads_bind.mp h1
    exact (dots_of_item h2 he).opens
  · exact hs ▸ Stops.opens (.inl closes)

theorem listDisplay_cut (h : Agree m r r') (hu : Cuts m (Ends 1) u u') :
    Cuts (m + 1) (fun _ => True) (listDisplay r u) (listDisplay r' u') := by
  intro v t a w ht hr _
  simp only [listDisplay,reads_bind,reads_maybe_bind,reads_orElse,reads_unit,reads_pure] at hr
  obtain ⟨_,x1,rfl,_,x2,h2,⟨e,x3,h3,⟨cs,x4,h4,_,x5,h5,rfl,rfl⟩ |
    ⟨-,items,x4,h4,_,x5,h5,rfl,rfl⟩⟩ | ⟨h3,hr⟩⟩ := hr
  all_goals
    have l2 := h2.length_le
    simp only [List.length_cons] at ht
  · have l3 := h3.length_le
    have closes := closes_of_close h5 (.inr (.inl rfl))
    simp [listDisplay,outcome_bind,outcome_maybe_bind,outcome_orElse,outcome_map,outcome_unit_self,Local.cut h2,
      h.expression (by omega) h3 (clauses_start h4).ends,clauses_cut hu (by omega) h4 closes,Local.cut h5]
  · have l3 := h3.length_le
    have closes := closes_of_close h5 (.inr (.inl rfl))
    have stops := more_stops h4 closes
    have clauses : outcome (clauses u') x3 = none := stops.clauses_refuses
    simp [listDisplay,outcome_bind,outcome_maybe_bind,outcome_orElse,outcome_map,outcome_unit_self,Local.cut h2,
      h.expression (by omega) h3 stops.ends,clauses,
      more_cut (items_cut h) items_refuse (by omega) h4 closes,Local.cut h5]
  · obtain ⟨o,x3,h4,_,x4,h5,rfl,rfl⟩ := hr
    have closes := closes_of_close h5 (.inr (.inl rfl))
    have hs := skip_eq_of_reads h2
    have expression : outcome r'.expression x2 = none := Apt.expression_refuses (opens_of_items h4 h3 hs closes)
    simp [listDisplay,outcome_bind,outcome_maybe_bind,outcome_map,outcome_unit_self,Local.cut h2,expression,
      parts_cut (items_cut h) items_refuse (by omega) hs h4 closes,Local.cut h5]

theorem entries_cut (h : Agree m r r') : Cuts m Stops (entry r) (entry r') := (entry_cut h).mono Stops.ends

theorem entries_refuse (h : Closes t) : Refuses (entry r) (skip t) := Stops.entry_refuses (.inl h)

theorem Stops.head_ne_colon (h : Stops t) : (skip t).head? ≠ some (CodeUnit.ofChar ':') := by
  rcases h with ⟨u,x,e,rfl | rfl | rfl⟩ | ⟨x,e⟩ <;> rw [e] <;>
    exact head?_ne (by decide)

theorem Iterates.head_ne_colon (h : Iterates t) : (skip t).head? ≠ some (CodeUnit.ofChar ':') := by
  obtain ⟨x,e⟩ := h
  rw [← e]
  exact head?_ne (by decide)

theorem braceDisplayFrom_cut (h : Agree m r r') (hu : Cuts m (Ends 1) u u') {first e : Expr} (ht : t.length < m)
    (hr : Reads v (braceDisplayFrom r u first) t e w) :
    Ends 7 t ∧ outcome (braceDisplayFrom r' u' first) t = some (e,w) := by
  simp only [braceDisplayFrom,reads_bind,reads_maybe_bind,reads_orElse,reads_pure] at hr
  obtain ⟨value,x,h1,⟨cs,x2,h2,_,x3,h3,rfl,rfl⟩ | ⟨-,entries,x2,h2,_,x3,h3,rfl,rfl⟩⟩ |
    ⟨-,⟨cs,x2,h2,_,x3,h3,rfl,rfl⟩ | ⟨-,items,x2,h2,_,x3,h3,rfl,rfl⟩⟩ := hr
  all_goals
    have closes := closes_of_close h3 (.inr (.inr rfl))
  · have l1 := h1.length_le
    refine ⟨colonValue_ends h1,?_⟩
    simp [braceDisplayFrom,outcome_bind,outcome_maybe_bind,outcome_orElse,outcome_map,
      colonValue_cut h ht h1 (clauses_start h2).ends,clauses_cut hu (by omega) h2 closes,Local.cut h3]
  · have l1 := h1.length_le
    have stops := more_stops h2 closes
    have clauses : outcome (clauses u') x = none := stops.clauses_refuses
    refine ⟨colonValue_ends h1,?_⟩
    simp [braceDisplayFrom,outcome_bind,outcome_maybe_bind,outcome_orElse,outcome_map,
      colonValue_cut h ht h1 stops.ends,clauses,more_cut (entries_cut h) entries_refuse (by omega) h2 closes,
      Local.cut h3]
  · have start := clauses_start h2
    have colon : outcome (colonValue r') t = none := colonValue_refuses start.head_ne_colon
    refine ⟨start.ends,?_⟩
    simp [braceDisplayFrom,outcome_bind,outcome_maybe_bind,outcome_orElse,outcome_map,colon,
      clauses_cut hu ht h2 closes,Local.cut h3]
  · have stops := more_stops h2 closes
    have colon : outcome (colonValue r') t = none := colonValue_refuses stops.head_ne_colon
    have clauses : outcome (clauses u') t = none := stops.clauses_refuses
    refine ⟨stops.ends,?_⟩
    simp [braceDisplayFrom,outcome_bind,outcome_maybe_bind,outcome_orElse,outcome_map,colon,clauses,
      more_cut (items_cut h) items_refuse ht h2 closes,Local.cut h3]

/-- An item that is a spread. -/
def isSpread : Item → Bool
  | .spread _ => true
  | .one _ => false

theorem outcome_item_cases {i : Item} (h : outcome (item r) t = some (i,w)) :
    (∃ e, i = .spread e ∧ outcome (spread r) t = some (e,w)) ∨
      ∃ e, i = .one e ∧ outcome r.expression t = some (e,w) := by
  rw [← reads_nil] at h
  simp only [item,reads_orElse,reads_map,reads_nil] at h
  rcases h with ⟨e,h,rfl⟩ | ⟨-,e,h,rfl⟩
  · exact .inl ⟨e,rfl,h⟩
  · exact .inr ⟨e,rfl,h⟩

/-- Read as entries, items that are spreads read the same; others end the entries before them. -/
theorem entries_of_items {items : List Item} {x : List CodeUnit} (hx : Stops x) (stop : Refuses (do comma; entry r) x)
    (h : Many (fun t i w => outcome (do comma; item r) t = some (i,w)) t items x) :
    Stops t ∧ ((items.all isSpread ∧ ∃ entries, outcome (many (do comma; entry r)) t = some (entries,x)) ∨
      (items.all isSpread = false ∧ ∃ entries y z, outcome (many (do comma; entry r)) t = some (entries,y) ∧
        skip y = CodeUnit.ofChar ',' :: z ∧ opens (skip z))) := by
  induction h with
  | nil => exact ⟨hx,.inl ⟨rfl,[],outcome_many.mpr ⟨.nil _,stop⟩⟩⟩
  | @cons t i x1 items x h1 _ ih =>
    obtain ⟨stops,ih⟩ := ih hx stop
    obtain ⟨_,y,hc,hi⟩ := reads_bind.mp (reads_nil.mpr h1)
    rw [reads_nil] at hi
    obtain ⟨z,hz,rfl⟩ := skip_of_comma hc
    have first := reads_nil.mp hc
    refine ⟨.inr ⟨z,hz⟩,?_⟩
    rcases outcome_item_cases hi with ⟨e,rfl,he⟩ | ⟨e,rfl,he⟩
    · have step : outcome (do comma; entry r) t = some (.spread e,x1) := by
        simp [outcome_bind,first,entry,outcome_orElse,outcome_map,he]
      rcases ih with ⟨all,entries,hm⟩ | ⟨all,entries,y,z,hm,hy⟩
      · obtain ⟨hm,hs⟩ := outcome_many.mp hm
        exact .inl ⟨by simpa [isSpread] using all,_,outcome_many.mpr ⟨.cons step hm,hs⟩⟩
      · obtain ⟨hm,hs⟩ := outcome_many.mp hm
        exact .inr ⟨by simpa [isSpread] using all,_,y,z,outcome_many.mpr ⟨.cons step hm,hs⟩,hy⟩
    · have opens := opens_of_outcome he
      have key : outcome (spread r) (skip z) = none := spread_refuses opens
      have colon : outcome (colonValue r) x1 = none := colonValue_refuses stops.head_ne_colon
      have refuses : Refuses (do comma; entry r) t := by
        simp [Refuses,outcome_bind,first,entry,pair,outcome_orElse,outcome_map,key,he,colon]
      exact .inr ⟨by simp [isSpread],[],t,z,outcome_many.mpr ⟨.nil t,refuses⟩,hz,opens⟩

/-- The readers of a display of spreads as a mapping and as a set. -/
def spreadMapping (r : Rules) : Reader Expr := do
  let entries ← sequence (entry r)
  close '}'
  return .mapping entries

theorem braceDisplayFromSpread_eq (r : Rules) : braceDisplayFromSpread r = orElse (spreadMapping r) (do
    let items ← sequence (item r)
    close '}'
    return .set items) := rfl

instance : Steady (spreadMapping r) := by unfold spreadMapping; infer_instance

theorem close_refuses {c : CodeUnit} (h : (skip t).head? ≠ some c) : Refuses (close c) t :=
  refuses_bind.mpr (.inr ⟨(),_,outcome_blanks t,refuses_unit.mpr h⟩)

/-- Items up to a closing brace, the first one a spread, make a mapping just when they are all spreads. -/
theorem spreadMapping_refuses_iff (he : Refuses r.expression t) {items : List Item} {x : List CodeUnit}
    (h : outcome (sequence (item r)) t = some (items,x)) (hc : outcome (close '}') x = some ((),w)) :
    items ≠ [] ∧ (Refuses (spreadMapping r) t ↔ items.all isSpread = false) := by
  have closes := closes_of_close (reads_nil.mpr hc) (.inr (.inr rfl))
  have rest := reads_nil.mpr h
  simp only [Grammar.sequence,more,reads_bind,reads_pure,reads_discard] at rest
  obtain ⟨i,y,hi,_,_,⟨items,z,hm,_,_,⟨o,ht⟩,rfl,rfl⟩,rfl,rfl⟩ := rest
  refine ⟨List.cons_ne_nil _ _,?_⟩
  obtain ⟨e,rfl,hs⟩ : ∃ e, i = .spread e ∧ outcome (spread r) t = some (e,y) := by
    rcases outcome_item_cases (reads_nil.mp hi) with h | ⟨e,-,h⟩
    · exact h
    · rw [Refuses,h] at he; cases he
  have stop : Stops z ∧ Refuses (do comma; entry r) z := by
    rcases reads_maybe.mp ht with ⟨_,-,hcomma⟩ | ⟨-,rfl,-⟩
    · have e := skip_of_afterBlanks_unit hcomma
      exact ⟨.inr ⟨_,e⟩,refuses_bind.mpr (.inr ⟨(),skip _,by simp [comma,outcome_bind,outcome_blanks,e,outcome_unit_self],
        entries_refuse closes⟩)⟩
    · exact ⟨.inl closes,(comma_refuses closes.head_ne).bind _⟩
  have head : outcome (entry r) t = some (.spread e,y) := by simp [entry,outcome_orElse,outcome_map,hs]
  have trailing := reads_nil.mp ht
  rcases (entries_of_items stop.1 stop.2 (outcome_many.mp (reads_nil.mp hm)).1).2 with
    ⟨all,entries,hm'⟩ | ⟨all,entries,y',z',hm',hy,opens⟩
  · have taken : ¬ Refuses (spreadMapping r) t := by
      simp [Refuses,spreadMapping,Grammar.sequence,more,outcome_bind,outcome_map,outcome_discard,head,hm',trailing,hc]
    simp [taken,isSpread,all]
  · have comma : outcome (afterBlanks (unit ',')) y' = some ((),z') := by
      simp [afterBlanks,outcome_bind,outcome_blanks,hy,outcome_unit_self]
    have brace : outcome (close '}') z' = none := close_refuses (head_ne_of_opens opens fun _ => rfl)
    have refuses : Refuses (spreadMapping r) t := by
      simp [Refuses,spreadMapping,Grammar.sequence,more,outcome_bind,outcome_map,outcome_discard,outcome_maybe,
        head,hm',comma,brace]
    simp [refuses,isSpread,all]

theorem braceDisplayFromSpread_cut (h : Agree m r r') {e : Expr} (ht : t.length < m)
    (he : Refuses r.expression (t ++ v)) (he' : Refuses r'.expression t)
    (hr : Reads v (braceDisplayFromSpread r) t e w) : outcome (braceDisplayFromSpread r') t = some (e,w) := by
  simp only [braceDisplayFromSpread_eq,reads_orElse,reads_bind,reads_pure] at hr
  rcases hr with hr | ⟨no,items,x,h1,_,x2,h2,rfl,rfl⟩
  · simp only [spreadMapping,reads_bind,reads_pure] at hr
    obtain ⟨entries,x,h1,_,x2,h2,rfl,rfl⟩ := hr
    have closes := closes_of_close h2 (.inr (.inr rfl))
    simp [braceDisplayFromSpread_eq,spreadMapping,outcome_orElse,outcome_bind,outcome_map,
      sequence_cut (entries_cut h) entries_refuse ht h1 closes,Local.cut h2]
  · have closes := closes_of_close h2 (.inr (.inr rfl))
    have h1' := sequence_cut (items_cut h) items_refuse ht h1 closes
    have h2' := Local.cut h2
    have all := ((spreadMapping_refuses_iff he h1.outcome_eq h2.outcome_eq).2).mp no
    have no' : outcome (spreadMapping r') t = none := ((spreadMapping_refuses_iff he' h1' h2').2).mpr all
    simp [braceDisplayFromSpread_eq,outcome_orElse,outcome_bind,outcome_map,no',h1',h2']

theorem braceDisplay_cut (h : Agree m r r') (hu : Cuts m (Ends 1) u u') :
    Cuts (m + 1) (fun _ => True) (braceDisplay r u) (braceDisplay r' u') := by
  intro v t a w ht hr _
  simp only [braceDisplay,reads_bind,reads_maybe_bind,reads_orElse,reads_unit,reads_pure] at hr
  obtain ⟨_,x1,rfl,_,x2,h2,⟨_,x3,rfl,rfl,rfl⟩ | ⟨-,⟨first,x3,h3,h4⟩ | ⟨h3,h4⟩⟩⟩ := hr
  all_goals
    have l2 := h2.length_le
    simp only [List.length_cons] at ht
  · simp [braceDisplay,outcome_bind,outcome_orElse,outcome_map,outcome_unit_self,Local.cut h2]
  · have l3 := h3.length_le
    obtain ⟨ends,h4⟩ := braceDisplayFrom_cut h hu (by omega) h4
    have h3 := h.expression (by omega) h3 ends
    have brace : outcome (unit '}') x2 = none :=
      refuses_unit.mpr (head_ne_of_opens (opens_of_outcome h3) fun _ => rfl)
    simp [braceDisplay,outcome_bind,outcome_maybe_bind,outcome_orElse,outcome_map,outcome_unit_self,Local.cut h2,h3,h4,brace]
  · have dots : Dots x2 := by
      simp only [braceDisplayFromSpread_eq,spreadMapping,reads_orElse,Grammar.sequence,reads_bind] at h4
      rcases h4 with ⟨_,_,⟨_,_,h,-⟩,-⟩ | ⟨-,_,_,⟨_,_,h,-⟩,-⟩
      · exact dots_of_entry h h3
      · exact dots_of_item h h3
    have h3' : outcome r'.expression x2 = none := Apt.expression_refuses dots.opens
    have brace : outcome (unit '}') x2 = none := by
      obtain ⟨x,rfl⟩ := dots
      exact unit_refuses_cons (by decide)
    simp [braceDisplay,outcome_bind,outcome_maybe_bind,outcome_orElse,outcome_map,Local.cut h2,brace,h3',
      outcome_unit_self,braceDisplayFromSpread_cut h (by omega) h3 h3' h4]

theorem item_head_ne {i : Item} {c : CodeUnit} (h : outcome (item r) t = some (i,w))
    (hc : ∀ x, opens (c :: x) = false) (dot : c ≠ CodeUnit.ofChar '.') : t.head? ≠ some c := by
  rcases outcome_item_cases h with ⟨e,-,h⟩ | ⟨e,-,h⟩
  · obtain ⟨x,rfl⟩ := dots_of_spread (reads_nil.mpr h)
    exact fun e => dot (Option.some.inj e).symm
  · exact head_ne_of_opens (opens_of_outcome h) hc

theorem parenthesized_cut (h : Agree m r r') :
    Cuts (m + 1) (fun _ => True) (parenthesized r) (parenthesized r') := by
  intro v t a w ht hr _
  simp only [parenthesized_eq,reads_bind,reads_orElse,reads_unit,reads_pure] at hr
  obtain ⟨_,x1,rfl,_,x2,h2,⟨_,x3,rfl,rfl,rfl⟩ | ⟨-,head,x3,h3,
    ⟨_,x4,h4,o,x5,h5,_,x6,h6,rfl,rfl⟩ | ⟨-,h4⟩⟩⟩ := hr
  all_goals
    have l2 := h2.length_le
    simp only [List.length_cons] at ht
  · simp [parenthesized_eq,outcome_bind,outcome_orElse,outcome_map,outcome_unit_self,Local.cut h2]
  · have l3 := h3.length_le
    have l4 := h4.length_le
    obtain ⟨y,hy,rfl⟩ := skip_of_comma h4
    have h3 := items_cut h (by omega) h3 (.inr ⟨y,hy⟩)
    have empty : outcome (unit ')') x2 = none := refuses_unit.mpr (item_head_ne h3 (fun _ => rfl) (by decide))
    have closes := closes_of_close h6 (.inl rfl)
    simp [parenthesized_eq,outcome_bind,outcome_orElse,outcome_map,outcome_unit_self,Local.cut h2,empty,h3,
      Local.cut h4,parts_cut (items_cut h) items_refuse (by omega) (skip_skip y) h5 closes,Local.cut h6]
  · cases head with
    | spread e => exact (reads_giveUp h4).elim
    | one e =>
      simp only [single,reads_bind,reads_pure] at h4
      obtain ⟨_,x4,h4,rfl,rfl⟩ := h4
      have closes := closes_of_close h4 (.inl rfl)
      have h3 := items_cut h (by omega) h3 (.inl closes)
      have empty : outcome (unit ')') x2 = none := refuses_unit.mpr (item_head_ne h3 (fun _ => rfl) (by decide))
      have comma : outcome comma x3 = none := comma_refuses closes.head_ne
      have one : outcome (single (.one e)) x3 = some (e,x4) := by simp [single,outcome_map,Local.cut h4]
      simp [parenthesized_eq,outcome_bind,outcome_orElse,outcome_map,outcome_unit_self,Local.cut h2,empty,h3,
        comma,one]

/-! ## Primaries and what follows them -/

theorem primary_cut (h : Agree m r r') (hu : Cuts m (Ends 1) u u') :
    Cuts (m + 1) (fun _ => True) (primary r u) (primary r' u') := by
  intro v t a w ht hr _
  simp only [primary,reads_orElse,reads_map] at hr
  rcases hr with ⟨n,h1,rfl⟩ | ⟨-,⟨s,h1,rfl⟩ | ⟨-,h1 | ⟨-,⟨s,h1,rfl⟩ | ⟨-,h1 | ⟨-,h1 | ⟨-,h1⟩⟩⟩⟩⟩⟩
  · exact outcome_primary_number _ _ (Local.cut h1)
  · exact outcome_primary_quoted _ _ (Local.cut h1)
  · exact outcome_primary_constant _ _ (Local.cut h1)
  · exact outcome_primary_name _ _ (Local.cut h1)
  · have h2 := listDisplay_cut h hu ht h1 trivial
    obtain ⟨_,x,hb,-⟩ := reads_bind.mp h1
    obtain rfl := reads_unit.mp hb
    exact outcome_primary_list _ _ h2
  · have h2 := braceDisplay_cut h hu ht h1 trivial
    obtain ⟨_,x,hb,-⟩ := reads_bind.mp h1
    obtain rfl := reads_unit.mp hb
    exact outcome_primary_brace _ _ h2
  · have h2 := parenthesized_cut h ht h1 trivial
    rw [parenthesized_eq] at h1
    obtain ⟨_,x,hb,-⟩ := reads_bind.mp h1
    obtain rfl := reads_unit.mp hb
    exact outcome_primary_parenthesized _ _ h2

/-- A keyword argument. -/
def keyword (r : Rules) : Reader Argument := do
  let name ← identifier
  blanks
  operator () '=' (some '=')
  blanks
  return .keyword name (← r.expression)

theorem argument_eq (r : Rules) : argument r =
    orElse (Argument.spread <$> spread r) (orElse (keyword r) (Argument.positional <$> r.expression)) := rfl

instance : Steady (keyword r) := by unfold keyword; infer_instance

/-- What is read as an expression before a comma or bracket is no keyword argument. -/
theorem keyword_refuses {e : Expr} (h : outcome r.expression t = some (e,w)) (hw : Stops w) :
    Refuses (keyword r) t := by
  by_contra hk
  obtain ⟨a,y,hk⟩ := not_refuses_iff.mp hk
  simp only [keyword,reads_bind] at hk
  obtain ⟨name,x,h1,_,y,h2,_,z,h3,-⟩ := hk
  obtain ⟨rfl,-,hz⟩ := reads_operator.mp h3
  have skip_x := skip_of_reads h2
  have ends : Ends 7 x := by
    rw [Ends,skip_x,rank_assign]
    · exact Nat.lt_succ_self 7
    · cases z with
      | nil => exact nofun
      | cons c z => exact head?_ne (by simpa using hz)
  obtain rfl := Apt.name_alone (reads_nil.mp h1) ends h
  rcases hw with ⟨u,y,e,rfl | rfl | rfl⟩ | ⟨y,e⟩ <;> rw [skip_x] at e <;> exact absurd (List.cons.inj e).1 (by decide)

theorem argument_cut (h : Agree m r r') : Cuts m Stops (argument r) (argument r') := by
  intro v t a w ht hr hw
  simp only [argument_eq,reads_orElse,reads_map] at hr
  rcases hr with ⟨e,h1,rfl⟩ | ⟨-,h1 | ⟨-,e,h1,rfl⟩⟩
  · simp [argument_eq,outcome_orElse,outcome_map,spread_cut h ht h1 hw.ends]
  · simp only [keyword,reads_bind,reads_pure] at h1
    obtain ⟨name,x,h1,_,x2,h2,_,x3,h3,_,x4,h4,e,x5,h5,rfl,rfl⟩ := h1
    have l1 := h1.length_le
    have l2 := h2.length_le
    have l3 := h3.length_le
    have l4 := h4.length_le
    have dots : outcome (spread r') t = none := by
      obtain ⟨c,y,rfl,hc⟩ := identifier_head h1
      exact spread_refuses_of_head (head?_ne (letter_facts hc).2.1)
    simp [argument_eq,keyword,outcome_orElse,outcome_bind,outcome_map,dots,Local.cut h1,Local.cut h2,Local.cut h3,
      Local.cut h4,h.expression (by omega) h5 hw.ends]
  · have h1 := h.expression ht h1 hw.ends
    have dots : outcome (spread r') t = none := spread_refuses (opens_of_outcome h1)
    have keyword : outcome (keyword r') t = none := keyword_refuses h1 hw
    simp [argument_eq,outcome_orElse,outcome_map,dots,keyword,h1]

theorem Stops.argument_refuses (h : Stops t) : Refuses (argument r) (skip t) := by
  have letter : ¬ (skip t).head?.any CodeUnit.startsName := by
    rcases h with ⟨u,x,e,rfl | rfl | rfl⟩ | ⟨x,e⟩ <;> rw [e] <;> exact Bool.false_ne_true
  exact refuses_orElse.mpr ⟨refuses_map.mpr h.spread_refuses,
    refuses_orElse.mpr ⟨(identifier_refuses letter).bind _,refuses_map.mpr (Apt.expression_refuses h.opens)⟩⟩

theorem callSuffix_cut (h : Agree m r r') : Cuts (m + 1) (fun _ => True) (callSuffix r) (callSuffix r') := by
  intro v t a w ht hr _
  simp only [callSuffix,reads_bind,reads_unit,reads_pure] at hr
  obtain ⟨_,x1,rfl,_,x2,h2,o,x3,h3,_,x4,h4,rfl,rfl⟩ := hr
  have l2 := h2.length_le
  simp only [List.length_cons] at ht
  have closes := closes_of_close h4 (.inl rfl)
  simp [callSuffix,outcome_bind,outcome_map,outcome_unit_self,Local.cut h2,
    parts_cut (argument_cut h) (fun h => Stops.argument_refuses (.inl h)) (by omega) (skip_eq_of_reads h2) h3 closes,
    Local.cut h4]

/-- A colon or a closing square bracket comes next. -/
def Cleaves (t : List CodeUnit) : Prop :=
  ∃ x, skip t = CodeUnit.ofChar ':' :: x ∨ skip t = CodeUnit.ofChar ']' :: x

omit [Apt r] in
/-- An expression, or none before a part of a slice. -/
theorem optional_cut (h : Agree m r r') {o : Option Expr} (ht : t.length < m) (hs : skip t = t)
    (hr : Reads v (maybe r.expression) t o w) (hw : Cleaves w) : outcome (maybe r'.expression) t = some (o,w) := by
  have facts : Ends 7 w ∧ opens (skip w) = false := by
    obtain ⟨x,e | e⟩ := hw <;> rw [Ends,e] <;> exact ⟨Nat.lt_succ_self 7,rfl⟩
  rw [outcome_maybe]
  rcases reads_maybe.mp hr with ⟨e,rfl,h1⟩ | ⟨rfl,rfl,-⟩
  · rw [h.expression ht h1 facts.1]
  · have none : outcome r'.expression _ = none := Apt.expression_refuses (hs ▸ facts.2)
    rw [none]

theorem sliceStep_cut (h : Agree m r r') {o : Option Expr} (ht : t.length < m)
    (hr : Reads v (sliceStep r) t o (CodeUnit.ofChar ']' :: w)) :
    outcome (sliceStep r') t = some (o,CodeUnit.ofChar ']' :: w) := by
  simp only [sliceStep,reads_bind,reads_unit,reads_pure] at hr
  obtain ⟨_,x1,rfl,_,x2,h2,o,x3,h3,_,x4,h4,rfl,rfl⟩ := hr
  have l2 := h2.length_le
  simp only [List.length_cons] at ht
  simp [sliceStep,outcome_bind,outcome_map,outcome_unit_self,Local.cut h2,Local.cut h4,
    optional_cut h (by omega) (skip_eq_of_reads h2) h3 ⟨w,.inr (skip_of_reads h4)⟩]

theorem bracketSuffix_cut (h : Agree m r r') : Cuts (m + 1) (fun _ => True) (bracketSuffix r) (bracketSuffix r') := by
  intro v t a w ht hr _
  simp only [bracketSuffix_eq,reads_bind,reads_orElse,reads_unit,reads_pure] at hr
  obtain ⟨_,x1,rfl,_,x2,h2,first,x3,h3,⟨_,x4,h4,_,x5,rfl,_,x6,h6,stop,x7,h7,_,x8,h8,step,x9,h9,
    _,x10,rfl,rfl,rfl⟩ | ⟨-,hr⟩⟩ := hr
  all_goals
    have l2 := h2.length_le
    simp only [List.length_cons] at ht
  · have l3 := h3.length_le
    have l4 := h4.length_le
    have l6 := h6.length_le
    have l7 := h7.length_le
    have l8 := h8.length_le
    simp only [List.length_cons] at l4
    have h3 := optional_cut h (by omega) (skip_eq_of_reads h2) h3 ⟨x5,.inl (skip_of_reads h4)⟩
    have h9 : outcome (maybe (sliceStep r')) x8 = some (step,CodeUnit.ofChar ']' :: x10) ∧ Cleaves x7 := by
      rw [outcome_maybe,Cleaves,skip_of_reads h8]
      rcases reads_maybe.mp h9 with ⟨o,rfl,hs⟩ | ⟨rfl,rfl,-⟩
      · obtain ⟨_,y,hc,-⟩ := reads_bind.mp hs
        exact ⟨by rw [sliceStep_cut h (by omega) hs],y,.inl (reads_unit.mp hc)⟩
      · have none : outcome (sliceStep r') (CodeUnit.ofChar ']' :: x10) = none :=
          (unit_refuses_cons (by decide)).bind _
        exact ⟨by rw [none],x10,.inr rfl⟩
    have h7 := optional_cut h (by omega) (skip_eq_of_reads h6) h7 h9.2
    simp [bracketSuffix_eq,outcome_bind,outcome_orElse,outcome_map,outcome_unit_self,Local.cut h2,h3,Local.cut h4,
      Local.cut h6,h7,Local.cut h8,h9.1]
  · cases first with
    | none => exact (reads_giveUp hr).elim
    | some i =>
      simp only [closeIndex,reads_bind,reads_pure] at hr
      obtain ⟨_,x4,h4,rfl,rfl⟩ := hr
      have bracket := skip_of_afterBlanks_unit h4
      have h3 := optional_cut h (by omega) (skip_eq_of_reads h2) h3 ⟨x4,.inr bracket⟩
      have colon : outcome (unit ':') (CodeUnit.ofChar ']' :: x4) = none := unit_refuses_cons (by decide)
      have one : outcome (closeIndex (some i)) x3 = some (.index i,x4) := by
        simp [closeIndex,outcome_map,Local.cut h4]
      simp [bracketSuffix_eq,outcome_bind,outcome_orElse,outcome_unit_self,outcome_blanks,skip_of_reads h2,h3,
        bracket,colon,one]

theorem suffix_cut (h : Agree m r r') : Cuts (m + 1) (fun _ => True) (suffix r) (suffix r') := by
  intro v t a w ht hr _
  simp only [suffix,afterBlanks,reads_bind,reads_orElse] at hr
  obtain ⟨_,x,h1,h2 | ⟨-,h2⟩⟩ := hr
  · have l1 := h1.length_le
    simp [suffix,afterBlanks,outcome_bind,outcome_orElse,Local.cut h1,callSuffix_cut h (by omega) h2 trivial]
  · have l1 := h1.length_le
    have call : outcome (callSuffix r') x = none := by
      rw [bracketSuffix_eq] at h2
      obtain ⟨_,y,hb,-⟩ := reads_bind.mp h2
      obtain rfl := reads_unit.mp hb
      exact (unit_refuses_cons (by decide)).bind _
    simp [suffix,afterBlanks,outcome_bind,outcome_orElse,Local.cut h1,call,
      bracketSuffix_cut h (by omega) h2 trivial]

theorem suffixed_cut (h : Agree m r r') (hu : Cuts m (Ends 1) u u') :
    Cuts (m + 1) (Ends 0) (suffixed r u) (suffixed r' u') := by
  intro v t a w ht hr hw
  simp only [suffixed_eq,reads_bind,reads_pure] at hr
  obtain ⟨head,x,h1,suffixes,y,h2,rfl,rfl⟩ := hr
  have l1 := h1.length_le
  have h2 := (many_cut (suffix_cut h) (fun _ => trivial) (by omega) h2 trivial (suffix_refuses hw)).1
  simp [suffixed_eq,outcome_bind,outcome_map,primary_cut h hu ht h1 trivial,h2]

theorem power_cut (h : Agree m r r') : Cuts (m + 1) (Ends 1) (power r r.unary) (power r' r'.unary) := by
  intro v t a w ht hr hw
  simp only [power,reads_bind,reads_orElse,reads_literal,reads_pure] at hr
  obtain ⟨base,x,h1,⟨_,x1,h2,_,x2,rfl,_,x3,h3,e,x4,h4,rfl,rfl⟩ | ⟨-,rfl,rfl⟩⟩ := hr
  · have l1 := h1.length_le
    have l2 := h2.length_le
    have l3 := h3.length_le
    simp only [List.length_append] at l2
    have mark : ("**" : Text).units.length = 2 := by decide
    have ends : Ends 0 x := by
      rw [Ends,skip_of_reads h2]
      exact Nat.lt_succ_self 0
    have stars : outcome (literal "**") (("**" : Text).units ++ x2) = some ((),x2) :=
      reads_nil.mp (reads_literal.mpr rfl)
    simp [power,outcome_bind,outcome_orElse,outcome_map,suffixed_cut h h.unary ht h1 ends,Local.cut h2,stars,
      Local.cut h3,h.unary (by omega) h4 hw]
  · exact power_alone (suffixed_cut h h.unary ht h1 (hw.mono (by decide))) hw

theorem signed_cut (h : Cuts m (Ends 1) u u') : Cuts (m + 1) (Ends 1) (signed u) (signed u') := by
  intro v t a w ht hr hw
  simp only [signed,reads_bind,reads_pure] at hr
  obtain ⟨op,x,h1,_,x1,h2,e,x2,h3,rfl,rfl⟩ := hr
  have l1 := h1.length_le
  have l2 := h2.length_le
  have lt := Consuming.length_lt (Local.cut h1)
  simp [signed,outcome_bind,outcome_map,Local.cut h1,Local.cut h2,h (by omega) h3 hw]

end

/-! ## The rules tied together -/

/-- Rules of any fuel agree, on texts of fewer units than the fuel of the second ones. -/
theorem agree_rules (n : Nat) : ∀ k, Agree k (rules n) (rules k) := by
  induction n with
  | zero => exact fun k => ⟨fun _ _ _ _ _ h => (reads_giveUp h).elim,fun _ _ _ _ _ h => (reads_giveUp h).elim⟩
  | succ n ih =>
    intro k
    cases k with
    | zero => exact ⟨fun _ _ _ _ h => absurd h (Nat.not_lt_zero _),fun _ _ _ _ h => absurd h (Nat.not_lt_zero _)⟩
    | succ k =>
      have h := ih k
      have unary : Cuts (k + 1) (Ends 1) (rules (n + 1)).unary (rules (k + 1)).unary := by
        intro v t a w ht hr hw
        rcases reads_orElse.mp hr with hr | ⟨-,hr⟩
        · show outcome (orElse _ _) t = _
          rw [outcome_orElse,signed_cut h.unary ht hr hw,Option.some_or]
        · have hr := power_cut h ht hr hw
          obtain ⟨_,_,hp,-⟩ := reads_bind.mp (reads_nil.mpr hr)
          obtain ⟨_,_,hp,-⟩ := reads_bind.mp hp
          have sign : outcome (signed (rules k).unary) t = none :=
            signed_refuses (unsigned_of_primary (reads_nil.mp hp))
          show outcome (orElse _ _) t = _
          rw [outcome_orElse,sign,Option.none_or,hr]
      have := (apt_rules (n + 1)).steady_unary
      have := (apt_rules (k + 1)).steady_unary
      exact ⟨conditional_cut h unary,unary⟩

end ConfTree.Grammar
