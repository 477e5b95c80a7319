import ConfTree.Proofs.Syntax.Rendering
import ConfTree.Proofs.Syntax.Source

/-!
# Expressions read back

What a well-formed tree is written as reads as that tree. Each form of expression is read by the rule
of its level once its parts, in brackets, are read; the parts are shorter, so fuel for the length is
fuel enough.
-/
namespace ConfTree

open Reader Token Grammar

set_option synthInstance.maxSize 3000

variable {v t w x : List CodeUnit} {n : Nat} {e : Expr}

/-- Nothing or a closing round bracket follows. -/
def Shut (w : List CodeUnit) : Prop := w = [] ∨ ∃ x, w = CodeUnit.ofChar ')' :: x

/-- What the expression is written as reads as the expression. -/
def Rereads (e : Expr) : Prop :=
  ∀ n w, e.written.length < n → Shut w → outcome (rules n).expression (e.written ++ w) = some (e,w)

theorem Shut.ends (h : Shut w) : Grammar.Ends 7 w := by
  rcases h with rfl | ⟨x,rfl⟩ <;> exact Nat.lt_succ_self 7

@[simp] theorem grouped_append (t w : List CodeUnit) :
    grouped t ++ w = CodeUnit.ofChar '(' :: (t ++ CodeUnit.ofChar ')' :: w) := by simp [grouped]

@[simp] theorem length_grouped (t : List CodeUnit) : (grouped t).length = t.length + 2 := by simp [grouped]

theorem skip_bracket (t : List CodeUnit) : skip (CodeUnit.ofChar '(' :: t) = CodeUnit.ofChar '(' :: t := rfl

theorem outcome_close {c : CodeUnit} (h : isSpace c = false) : outcome (close c) (c :: w) = some ((),w) := by
  simp [close,afterBlanks,outcome_bind,outcome_blanks,skip_cons h,outcome_unit_self]

theorem primary_grouped (h : Rereads e) (hl : e.written.length < n) (u : Reader Expr) [Steady u] (w : List CodeUnit) :
    outcome (primary (rules n) u) (grouped e.written ++ w) = some (e,w) := by
  have inner := h n (CodeUnit.ofChar ')' :: w) hl (.inr ⟨w,rfl⟩)
  have opens := opens_of_outcome inner
  have empty : outcome (unit ')') (e.written ++ CodeUnit.ofChar ')' :: w) = none :=
    refuses_unit.mpr (head_ne_of_opens opens fun _ => rfl)
  have comma : outcome comma (CodeUnit.ofChar ')' :: w) = none := rfl
  have one : outcome (single (.one e)) (CodeUnit.ofChar ')' :: w) = some (e,w) := by
    simp [single,outcome_map,outcome_close (c := CodeUnit.ofChar ')') rfl]
  rw [grouped_append]
  refine outcome_primary_parenthesized _ _ ?_
  simp [parenthesized_eq,outcome_bind,outcome_orElse,outcome_map,outcome_unit_self,outcome_blanks,
    skip_of_opens opens,empty,outcome_item inner,comma,one]

/-- What is read as a primary is all that the rules above it read, where nothing goes on. -/
theorem unary_of_primary (h : outcome (primary (rules n) (rules n).unary) t = some (e,w)) (hw : Grammar.Ends 1 w) :
    outcome (rules (n + 1)).unary t = some (e,w) := unary_alone h hw

theorem expression_of_unary (h : outcome (rules n).unary t = some (e,w)) (hw : Grammar.Ends 7 w) :
    outcome (rules n).expression t = some (e,w) := by
  cases n with
  | zero => cases h
  | succ n => exact conditional_alone (r := rules n) h hw

theorem unary_grouped (h : Rereads e) (hl : (grouped e.written).length ≤ n) (hw : Grammar.Ends 1 w) :
    outcome (rules n).unary (grouped e.written ++ w) = some (e,w) := by
  rw [length_grouped] at hl
  obtain ⟨n,rfl⟩ : ∃ m, n = m + 1 := ⟨n - 1,by omega⟩
  exact unary_alone (primary_grouped h (by omega) _ w) hw

theorem expression_grouped (h : Rereads e) (hl : (grouped e.written).length ≤ n) (hw : Grammar.Ends 7 w) :
    outcome (rules n).expression (grouped e.written ++ w) = some (e,w) :=
  expression_of_unary (unary_grouped h hl (hw.mono (by decide))) hw

theorem logicalOr_grouped (h : Rereads e) (hl : (grouped e.written).length ≤ n) (hw : Grammar.Ends 6 w) :
    outcome (logicalOr (rules n).unary) (grouped e.written ++ w) = some (e,w) :=
  logicalOr_alone (unary_grouped h hl (hw.mono (by decide))) hw

/-! ## Operators -/

section

variable {ω : Type} {op : Reader ω} {o : ω} {sign : Text} {k : Nat} {u : Reader Expr} [Steady u] {l r : Expr}

/-- Before brackets a sign reads as an operator. -/
structure Marks (op : Reader ω) (o : ω) (sign : Text) : Prop where
  skip_eq : ∀ y, skip (sign.units ++ CodeUnit.ofChar '(' :: y) = sign.units ++ CodeUnit.ofChar '(' :: y
  read : ∀ y, outcome op (sign.units ++ CodeUnit.ofChar '(' :: y) = some (o,CodeUnit.ofChar '(' :: y)

/-- Where a sign goes on, operators of the tighter levels do not. -/
theorem Marks.ends [Level (k + 1) op] (m : Marks op o sign) (y : List CodeUnit) :
    Grammar.Ends k (sign.units ++ CodeUnit.ofChar '(' :: y) := by
  rw [Grammar.Ends,m.skip_eq,Level.rank_eq (reads_nil.mpr (m.read y))]
  exact Nat.lt_succ_self k

variable [Steady op]

theorem Marks.operand (m : Marks op o sign) (h : outcome u (grouped r.written ++ w) = some (r,w)) :
    outcome (operand op u) (sign.units ++ (grouped r.written ++ w)) = some ((o,r),w) := by
  rw [grouped_append] at h ⊢
  simp [Grammar.operand,outcome_bind,outcome_map,outcome_blanks,m.skip_eq,m.read,skip_bracket,h]

/-- Two operands in brackets with an operator between them. -/
theorem Marks.joined [Level (k + 1) op] [Consuming op] (m : Marks op o sign) (join : ω → Expr → Expr → Expr)
    (hl : ∀ x, Grammar.Ends k x → outcome u (grouped l.written ++ x) = some (l,x))
    (hr : ∀ x, Grammar.Ends k x → outcome u (grouped r.written ++ x) = some (r,x)) (hw : Grammar.Ends (k + 1) w) :
    outcome (leftAssociative u op join) (grouped l.written ++ (sign.units ++ (grouped r.written ++ w))) =
      some (join o l r,w) := by
  have left := hl (sign.units ++ (grouped r.written ++ w)) (by rw [grouped_append]; exact m.ends _)
  have tail : outcome (many (Grammar.operand op u)) (sign.units ++ (grouped r.written ++ w)) = some ([(o,r)],w) :=
    outcome_many.mpr ⟨.cons (m.operand (hr w (hw.mono (Nat.le_succ k)))) (.nil w),operand_refuses hw⟩
  rw [leftAssociative_eq,outcome_bind,left,Option.bind_some,outcome_bind,tail]
  rfl

end

theorem marks_multiplicative {op : BinaryOp} (h : op ∈ [BinaryOp.multiply,.divide,.modulo]) :
    Marks multiplicativeOperator op op.sign := by
  simp only [List.mem_cons,List.not_mem_nil,or_false] at h
  rcases h with rfl | rfl | rfl <;> exact ⟨fun _ => rfl,fun _ => rfl⟩

theorem marks_additive {op : BinaryOp} (h : op ∈ [BinaryOp.add,.subtract]) : Marks additiveOperator op op.sign := by
  simp only [List.mem_cons,List.not_mem_nil,or_false] at h
  rcases h with rfl | rfl <;> exact ⟨fun _ => rfl,fun _ => rfl⟩

theorem marks_compare (op : CompareOp) : Marks compareOperator op op.sign := by
  cases op <;> exact ⟨fun _ => rfl,fun _ => rfl⟩

theorem marks_and : Marks andOperator .and LogicalOp.and.sign := ⟨fun _ => rfl,fun _ => rfl⟩

theorem marks_or : Marks orOperator .or LogicalOp.or.sign := ⟨fun _ => rfl,fun _ => rfl⟩

section

variable {l r : Expr} (hl : Rereads l) (hr : Rereads r)

include hl hr

theorem rereads_power : Rereads (.binary .power l r) := by
  intro n w length hw
  simp only [Expr.written,List.append_assoc,List.length_append,length_grouped] at length ⊢
  obtain ⟨n,rfl⟩ : ∃ m, n = m + 1 := ⟨n - 1,by omega⟩
  have base : outcome (suffixed (rules n) (rules n).unary)
      (grouped l.written ++ (BinaryOp.power.sign.units ++ (grouped r.written ++ w))) =
        some (l,BinaryOp.power.sign.units ++ (grouped r.written ++ w)) :=
    suffixed_alone (primary_grouped hl (by omega) _ _) (Nat.lt_succ_self 0)
  have stars : outcome (literal "**") (skip (BinaryOp.power.sign.units ++ (grouped r.written ++ w))) =
      some ((),grouped r.written ++ w) := reads_nil.mp (reads_literal.mpr rfl)
  have exponent := unary_grouped hr (n := n) (by rw [length_grouped]; omega) (hw.ends.mono (by decide))
  have sign : outcome (signed (rules n).unary)
      (grouped l.written ++ (BinaryOp.power.sign.units ++ (grouped r.written ++ w))) = none := rfl
  refine expression_of_unary (n := n + 1) ?_ hw.ends
  show outcome (orElse _ _) _ = _
  rw [outcome_orElse,sign,Option.none_or]
  have skip_grouped : skip (grouped r.written ++ w) = grouped r.written ++ w := rfl
  simp [power,outcome_bind,outcome_orElse,outcome_map,base,outcome_blanks,stars,skip_grouped,exponent,-grouped_append]

theorem rereads_multiplicative {op : BinaryOp} (h : op ∈ [BinaryOp.multiply,.divide,.modulo]) :
    Rereads (.binary op l r) := by
  intro n w length hw
  simp only [Expr.written,List.append_assoc,List.length_append] at length ⊢
  obtain ⟨n,rfl⟩ : ∃ m, n = m + 1 := ⟨n - 1,by omega⟩
  have read := (marks_multiplicative h).joined .binary (fun x hx => unary_grouped hl (n := n + 1) (by omega) hx)
    (fun x hx => unary_grouped hr (by omega) hx) (hw.ends.mono (by decide))
  rw [← multiplicative_eq] at read
  refine conditional_of_logicalOr (logicalOr_of_logicalAnd (logicalAnd_of_comparison (comparison_of_additive
    (additive_of_multiplicative read ?_) ?_) ?_) ?_) hw.ends
  all_goals exact hw.ends.mono (by decide)

theorem rereads_additive {op : BinaryOp} (h : op ∈ [BinaryOp.add,.subtract]) : Rereads (.binary op l r) := by
  intro n w length hw
  simp only [Expr.written,List.append_assoc,List.length_append] at length ⊢
  obtain ⟨n,rfl⟩ : ∃ m, n = m + 1 := ⟨n - 1,by omega⟩
  have operand {e : Expr} (he : Rereads e) (hn : (grouped e.written).length ≤ n + 1) (x : List CodeUnit) (hx : Grammar.Ends 2 x) :
      outcome (multiplicative (rules (n + 1)).unary) (grouped e.written ++ x) = some (e,x) :=
    multiplicative_alone (unary_grouped he hn (hx.mono (by decide))) hx
  have read := (marks_additive h).joined .binary (operand hl (by omega)) (operand hr (by omega))
    (hw.ends.mono (by decide))
  rw [← additive_eq] at read
  refine conditional_of_logicalOr (logicalOr_of_logicalAnd (logicalAnd_of_comparison (comparison_of_additive read ?_) ?_) ?_)
    hw.ends
  all_goals exact hw.ends.mono (by decide)

theorem rereads_and : Rereads (.logical .and l r) := by
  intro n w length hw
  simp only [Expr.written,List.append_assoc,List.length_append] at length ⊢
  obtain ⟨n,rfl⟩ : ∃ m, n = m + 1 := ⟨n - 1,by omega⟩
  have operand {e : Expr} (he : Rereads e) (hn : (grouped e.written).length ≤ n + 1) (x : List CodeUnit) (hx : Grammar.Ends 4 x) :
      outcome (comparison (rules (n + 1)).unary) (grouped e.written ++ x) = some (e,x) :=
    comparison_alone (unary_grouped he hn (hx.mono (by decide))) hx
  have read := marks_and.joined .logical (operand hl (by omega)) (operand hr (by omega)) (hw.ends.mono (by decide))
  rw [← logicalAnd_eq] at read
  exact conditional_of_logicalOr (logicalOr_of_logicalAnd read (hw.ends.mono (by decide))) hw.ends

theorem rereads_or : Rereads (.logical .or l r) := by
  intro n w length hw
  simp only [Expr.written,List.append_assoc,List.length_append] at length ⊢
  obtain ⟨n,rfl⟩ : ∃ m, n = m + 1 := ⟨n - 1,by omega⟩
  have operand {e : Expr} (he : Rereads e) (hn : (grouped e.written).length ≤ n + 1) (x : List CodeUnit) (hx : Grammar.Ends 5 x) :
      outcome (logicalAnd (rules (n + 1)).unary) (grouped e.written ++ x) = some (e,x) :=
    logicalAnd_of_comparison (comparison_alone (unary_grouped he hn (hx.mono (by decide))) (hx.mono (by decide))) hx
  have read := marks_or.joined .logical (operand hl (by omega)) (operand hr (by omega)) (hw.ends.mono (by decide))
  rw [← logicalOr_eq] at read
  exact conditional_of_logicalOr read hw.ends

end

theorem rereads_binary {l r : Expr} (hl : Rereads l) (hr : Rereads r) : ∀ op, Rereads (.binary op l r)
  | .add | .subtract => rereads_additive hl hr (by decide)
  | .multiply | .divide | .modulo => rereads_multiplicative hl hr (by decide)
  | .power => rereads_power hl hr

theorem rereads_compare {first : Expr} {rest : List (CompareOp × Expr)} (hf : Rereads first)
    (hr : ∀ link ∈ rest, Rereads link.2) (ne : rest ≠ []) : Rereads (.compare first rest) := by
  intro n w length hw
  simp only [Expr.written,linksWritten_eq,List.append_assoc,List.length_append] at length ⊢
  have operand {e : Expr} (he : Rereads e) (hn : (grouped e.written).length ≤ n) {x : List CodeUnit} (hx : Grammar.Ends 3 x) :
      outcome (additive (rules n).unary) (grouped e.written ++ x) = some (e,x) :=
    additive_alone (unary_grouped he hn (hx.mono (by decide))) hx
  have links : Many (fun t a w => outcome (Grammar.operand compareOperator (additive (rules n).unary)) t = some (a,w))
      (rest.flatMap linkWritten ++ w) rest w ∧ Grammar.Ends 3 (rest.flatMap linkWritten ++ w) := by
    replace length : (rest.flatMap linkWritten).length < n := by omega
    clear ne
    induction rest with
    | nil => exact ⟨.nil w,hw.ends.mono (by decide)⟩
    | cons link rest ih =>
      obtain ⟨op,e⟩ := link
      obtain ⟨head,tail⟩ := List.forall_mem_cons.mp hr
      simp only [List.flatMap_cons,linkWritten,List.append_assoc,List.length_append] at length ⊢
      obtain ⟨run,ends⟩ := ih tail (by omega)
      refine ⟨.cons ((marks_compare op).operand (operand head (by dsimp only; omega) ends)) run,?_⟩
      rw [grouped_append]
      exact (marks_compare op).ends _
  have refuses : Reader.Refuses (Grammar.operand compareOperator (additive (rules n).unary)) w := operand_refuses (hw.ends.mono (by decide : 4 ≤ 7))
  have read : outcome (comparison (rules n).unary) (grouped first.written ++ (rest.flatMap linkWritten ++ w)) =
      some (.compare first rest,w) := by
    rw [comparison_eq,outcome_bind,operand hf (by omega) links.2,Option.bind_some,outcome_bind,
      outcome_many.mpr ⟨links.1,refuses⟩,Option.bind_some,List.isEmpty_eq_false_iff.mpr ne]
    rfl
  obtain ⟨n,rfl⟩ : ∃ m, n = m + 1 := ⟨n - 1,by omega⟩
  exact conditional_of_logicalOr (logicalOr_of_logicalAnd (logicalAnd_of_comparison read (hw.ends.mono (by decide)))
    (hw.ends.mono (by decide))) hw.ends

theorem rereads_unary {e : Expr} (he : Rereads e) (op : UnaryOp) : Rereads (.unary op e) := by
  intro n w length hw
  simp only [Expr.written,List.append_assoc,List.length_append] at length ⊢
  obtain ⟨n,rfl⟩ : ∃ m, n = m + 1 := ⟨n - 1,by omega⟩
  have one : op.sign.units.length = 1 := by cases op <;> rfl
  have sign (y : List CodeUnit) : outcome
      (orElse (operator .minus '-' none) (orElse (operator .plus '+' none) (operator .not '!' (some '='))))
      (op.sign.units ++ CodeUnit.ofChar '(' :: y) = some (op,CodeUnit.ofChar '(' :: y) := by
    cases op <;> rfl
  have argument := unary_grouped he (n := n) (w := w) (by omega) (hw.ends.mono (by decide))
  refine expression_of_unary (n := n + 1) ?_ hw.ends
  show outcome (orElse _ _) _ = _
  rw [grouped_append] at argument ⊢
  simp [outcome_orElse,signed,outcome_bind,outcome_map,sign,outcome_blanks,skip_bracket,argument]

theorem rereads_conditional {test consequent alternate : Expr} (ht : Rereads test) (hc : Rereads consequent)
    (ha : Rereads alternate) : Rereads (.conditional test consequent alternate) := by
  intro n w length hw
  simp only [Expr.written,List.append_assoc,List.cons_append,List.length_append,List.length_cons] at length ⊢
  obtain ⟨n,rfl⟩ : ∃ m, n = m + 1 := ⟨n - 1,by omega⟩
  have first := logicalOr_grouped ht (n := n + 1) (by omega) (w := CodeUnit.ofChar '?' :: (grouped consequent.written ++
    CodeUnit.ofChar ':' :: (grouped alternate.written ++ w))) (Nat.lt_succ_self 6)
  have second := expression_grouped hc (n := n) (by omega)
    (w := CodeUnit.ofChar ':' :: (grouped alternate.written ++ w)) (Nat.lt_succ_self 7)
  have third := expression_grouped ha (n := n) (by omega) hw.ends
  show outcome (conditional (rules n) (rules (n + 1)).unary) _ = _
  have blanks_mark (c : Char) (hc : c = '?' ∨ c = ':') (y : List CodeUnit) :
      skip (CodeUnit.ofChar c :: y) = CodeUnit.ofChar c :: y := by rcases hc with rfl | rfl <;> rfl
  have blanks_grouped (t y : List CodeUnit) : skip (grouped t ++ y) = grouped t ++ y := rfl
  simp [conditional,colonValue,outcome_bind,outcome_orElse,outcome_map,first,outcome_blanks,blanks_mark,outcome_unit_self,
    blanks_grouped,second,third,-grouped_append]

/-! ## Sequences, literals and displays -/

section

variable {α : Type} {p : Reader α} [Steady p] {write : α → List CodeUnit} {as : List α}

/-- What follows one of the parts before `w`. -/
def Follows (w x : List CodeUnit) : Prop := x = w ∨ x.head? = some (CodeUnit.ofChar ',')

/-- What the parts are written as is read as them before `w`. -/
def Lists (p : Reader α) (write : α → List CodeUnit) (as : List α) (w : List CodeUnit) : Prop :=
  ∀ a ∈ as, ∀ x, Follows w x → skip (write a ++ x) = write a ++ x ∧ outcome p (write a ++ x) = some (a,x)

/-- The parts after the first one, and what comes after them. -/
def following (write : α → List CodeUnit) (as : List α) (w : List CodeUnit) : List CodeUnit :=
  (as.map write).flatMap (CodeUnit.ofChar ',' :: ·) ++ w

theorem listed_append (a : α) : listed ((a :: as).map write) ++ w = write a ++ following write as w :=
  List.append_assoc ..

theorem follows_following (write : α → List CodeUnit) (as : List α) (w : List CodeUnit) :
    Follows w (following write as w) := by
  cases as with
  | nil => exact .inl rfl
  | cons => exact .inr rfl

theorem Follows.stops (h : Follows w x) (hw : Closes w) : Stops x := by
  rcases h with rfl | h
  · exact .inl hw
  · cases x with
    | nil => cases h
    | cons u y => cases h; exact .inr ⟨y,rfl⟩

theorem following_stops (write : α → List CodeUnit) (as : List α) (hw : Closes w) : Stops (following write as w) :=
  (follows_following write as w).stops hw

omit [Steady p] in
theorem Lists.tail {a : α} (h : Lists p write (a :: as) w) : Lists p write as w :=
  fun b hb => h b (List.mem_cons_of_mem a hb)

theorem outcome_comma (t : List CodeUnit) : outcome comma (CodeUnit.ofChar ',' :: t) = some ((),skip t) := by
  have mark : skip (CodeUnit.ofChar ',' :: t) = CodeUnit.ofChar ',' :: t := rfl
  simp only [comma,outcome_bind,outcome_blanks,mark,Option.bind_some,outcome_unit_self]

section

variable {ι : Type} {spell : ι → List CodeUnit} {part : ι → α} {is : List ι}

/-- Parts that are read before `w`, each after a comma and maybe blanks. -/
theorem many_following (h : ∀ i ∈ is, ∀ x, Follows w x → outcome p (skip (spell i ++ x)) = some (part i,x)) :
    Many (fun t a w => outcome (do comma; p) t = some (a,w)) (following spell is w) (is.map part) w := by
  induction is with
  | nil => exact .nil w
  | cons i is ih =>
    have read := h i List.mem_cons_self _ (follows_following spell is w)
    rw [following,List.map_cons,List.flatMap_cons,List.cons_append,List.cons_append,List.append_assoc]
    refine .cons ?_ (ih fun j hj => h j (List.mem_cons_of_mem i hj))
    rw [outcome_bind,← following,outcome_comma,Option.bind_some,read]

theorem more_following (h : ∀ i ∈ is, ∀ x, Follows w x → outcome p (skip (spell i ++ x)) = some (part i,x)) (hw : Closes w) :
    outcome (more p) (following spell is w) = some (is.map part,w) := by
  have stop : Reader.Refuses (do comma; p) w := (comma_refuses hw.head_ne).bind _
  have last : outcome (afterBlanks (unit ',')) w = none :=
    refuses_bind.mpr (.inr ⟨(),_,outcome_blanks w,refuses_unit.mpr hw.head_ne⟩)
  simp [Grammar.more,outcome_bind,outcome_map,outcome_discard,outcome_maybe,outcome_many.mpr ⟨many_following h,stop⟩,last]

end

omit [Steady p] in
theorem Lists.read (h : Lists p write as w) (a : α) (ha : a ∈ as) (x : List CodeUnit) (hx : Follows w x) :
    outcome p (skip (write a ++ x)) = some (a,x) := by
  obtain ⟨blanks,read⟩ := h a ha x hx
  rw [blanks,read]

theorem Lists.many (h : Lists p write as w) :
    Many (fun t a w => outcome (do comma; p) t = some (a,w)) (following write as w) as w := by
  simpa using many_following h.read

theorem Lists.more (h : Lists p write as w) (hw : Closes w) : outcome (more p) (following write as w) = some (as,w) := by
  simpa using more_following h.read hw

theorem Lists.sequence {a : α} (h : Lists p write (a :: as) w) (hw : Closes w) :
    outcome (sequence p) (write a ++ following write as w) = some (a :: as,w) := by
  have head := (h a List.mem_cons_self _ (follows_following write as w)).2
  rw [Grammar.sequence,outcome_bind,head,Option.bind_some,outcome_bind,h.tail.more hw]
  rfl

/-- Parts, perhaps none, before a closing bracket. -/
theorem Lists.parts (h : Lists p write as w) (hw : Closes w) (hs : skip w = w) (none : Reader.Refuses p w) :
    skip (listed (as.map write) ++ w) = listed (as.map write) ++ w ∧
      ∃ o, outcome (maybe (Grammar.sequence p)) (listed (as.map write) ++ w) = some (o,w) ∧ o.getD [] = as := by
  cases as with
  | nil =>
    have refuses : outcome (Grammar.sequence p) w = .none := Refuses.bind none _
    exact ⟨hs,.none,by rw [outcome_maybe,List.map_nil,listed,List.nil_append,refuses],rfl⟩
  | cons a as =>
    rw [listed_append]
    exact ⟨(h a List.mem_cons_self _ (follows_following write as w)).1,some (a :: as),
      by rw [outcome_maybe,h.sequence hw],rfl⟩

end

theorem length_le_listed {part : List CodeUnit} {parts : List (List CodeUnit)} (h : part ∈ parts) :
    part.length ≤ (listed parts).length := by
  cases parts with
  | nil => cases h
  | cons first rest =>
    rw [listed,List.length_append]
    rcases List.mem_cons.mp h with rfl | h
    · omega
    · have := (List.sublist_flatten_of_mem (List.mem_map_of_mem (f := (CodeUnit.ofChar ',' :: ·)) h)).length_le
      rw [List.length_cons,← List.flatMap_def] at this
      omega

theorem length_head_le {α : Type} (write : α → List CodeUnit) (a : α) (as : List α) :
    (write a).length ≤ (listed ((a :: as).map write)).length := length_le_listed (List.mem_map_of_mem List.mem_cons_self)

theorem rereads_of_primary (h : ∀ n w, e.written.length ≤ n → Shut w →
    outcome (primary (rules n) (rules n).unary) (e.written ++ w) = some (e,w)) : Rereads e := by
  intro n w length hw
  obtain ⟨n,rfl⟩ : ∃ m, n = m + 1 := ⟨n - 1,by omega⟩
  exact expression_of_unary (unary_alone (h n w (by omega) hw) (hw.ends.mono (by decide))) hw.ends

theorem Shut.name (h : Shut w) : ¬ w.head?.any CodeUnit.inName := by
  rcases h with rfl | ⟨x,rfl⟩
  · exact Bool.false_ne_true
  · exact Bool.false_ne_true

theorem rereads_literal {value : Literal} (h : ∀ x, value = .number x → ∃ k < 2 ^ 53, x = .ofNat k) :
    Rereads (.literal value) := by
  refine rereads_of_primary fun n w _ hw => ?_
  cases value with
  | null => exact outcome_primary_constant _ _ (by rcases hw with rfl | ⟨x,rfl⟩ <;> rfl)
  | bool b => exact outcome_primary_constant _ _ (by cases b <;> rcases hw with rfl | ⟨x,rfl⟩ <;> rfl)
  | number x =>
    obtain ⟨k,hk,rfl⟩ := h x rfl
    have point : w.head? ≠ some (CodeUnit.ofChar '.') := by
      rcases hw with rfl | ⟨x,rfl⟩
      · exact nofun
      · exact head?_ne (by decide)
    rw [Expr.written,Literal.written,Number.int?_ofNat hk]
    exact outcome_primary_number _ _ (outcome_number k hw.name point)
  | text t =>
    simp only [Expr.written,Literal.written,List.cons_append,List.append_assoc,List.nil_append]
    exact outcome_primary_quoted _ _ (outcome_quoted t)

theorem rereads_name {name : Text} (h : isName name) : Rereads (.name name) := by
  refine rereads_of_primary fun n w _ hw => ?_
  have read : Reads [] identifier (name.units ++ w) name w := reads_identifier.mpr ⟨rfl,h,by simpa using hw.name⟩
  exact outcome_primary_name _ _ (reads_nil.mp read)

theorem outcome_spread (h : Rereads e) (hl : (grouped e.written).length ≤ n) (hx : Grammar.Ends 7 x) :
    outcome (spread (rules n)) (("..." : Text).units ++ (grouped e.written ++ x)) = some (e,x) := by
  have dots : outcome (literal "...") (("..." : Text).units ++ (grouped e.written ++ x)) = some ((),grouped e.written ++ x) :=
    reads_nil.mp (reads_literal.mpr rfl)
  have blanks : skip (grouped e.written ++ x) = grouped e.written ++ x := rfl
  simp only [spread,outcome_bind,dots,Option.bind_some,outcome_blanks,blanks,expression_grouped h hl hx]

theorem item_written {i : Item} (hi : ∀ p ∈ i.parts, Rereads p) (hl : i.written.length ≤ n) (hx : Grammar.Ends 7 x) :
    outcome (item (rules n)) (i.written ++ x) = some (i,x) := by
  cases i with
  | one e => exact outcome_item (expression_grouped (hi e List.mem_cons_self) hl hx)
  | spread e =>
    rw [Item.written,List.length_append] at hl
    rw [Item.written,List.append_assoc,item,outcome_orElse,outcome_map,
      outcome_spread (hi e List.mem_cons_self) (by omega) hx]
    rfl

theorem entry_written {i : Entry} (hi : ∀ p ∈ i.parts, Rereads p) (hl : i.written.length ≤ n) (hx : Grammar.Ends 7 x) :
    outcome (entry (rules n)) (i.written ++ x) = some (i,x) := by
  cases i with
  | pair key value =>
    simp only [Entry.written,List.length_append,List.length_cons] at hl
    have value_read : outcome (colonValue (rules n)) (CodeUnit.ofChar ':' :: (grouped value.written ++ x)) =
        some (value,x) := by
      have colon (t : List CodeUnit) : skip (CodeUnit.ofChar ':' :: t) = CodeUnit.ofChar ':' :: t := rfl
      have blanks : skip (grouped value.written ++ x) = grouped value.written ++ x := rfl
      simp only [colonValue,outcome_bind,outcome_blanks,colon,Option.bind_some,outcome_unit_self,blanks,
        expression_grouped (hi value (by simp [Entry.parts])) (show _ ≤ n by omega) hx]
    rw [Entry.written,List.append_assoc,List.cons_append]
    exact outcome_entry (expression_grouped (hi key List.mem_cons_self) (by omega) (Nat.lt_succ_self 7)) value_read
  | spread e =>
    rw [Entry.written,List.length_append] at hl
    rw [Entry.written,List.append_assoc,entry,outcome_orElse,outcome_map,
      outcome_spread (hi e List.mem_cons_self) (by omega) hx]
    rfl

theorem lists_items {items : List Item} (h : ∀ p ∈ items.flatMap Item.parts, Rereads p)
    (hl : (listed (items.map Item.written)).length ≤ n) (hw : Closes w) :
    Lists (item (rules n)) Item.written items w := by
  intro i hi x hx
  refine ⟨by cases i <;> rfl,item_written (fun p hp => h p (List.mem_flatMap.mpr ⟨i,hi,hp⟩)) ?_ (hx.stops hw).ends⟩
  exact Nat.le_trans (length_le_listed (List.mem_map_of_mem hi)) hl

theorem lists_entries {entries : List Entry} (h : ∀ p ∈ entries.flatMap Entry.parts, Rereads p)
    (hl : (listed (entries.map Entry.written)).length ≤ n) (hw : Closes w) :
    Lists (entry (rules n)) Entry.written entries w := by
  intro i hi x hx
  refine ⟨by cases i <;> rfl,entry_written (fun p hp => h p (List.mem_flatMap.mpr ⟨i,hi,hp⟩)) ?_ (hx.stops hw).ends⟩
  exact Nat.le_trans (length_le_listed (List.mem_map_of_mem hi)) hl

theorem closes_cons {c : CodeUnit} (h : c ∈ [CodeUnit.ofChar ')',CodeUnit.ofChar ']',CodeUnit.ofChar '}'])
    (t : List CodeUnit) : Closes (c :: t) ∧ skip (c :: t) = c :: t := by
  simp only [List.mem_cons,List.not_mem_nil,or_false] at h
  have skip_eq : skip (c :: t) = c :: t := by rcases h with rfl | rfl | rfl <;> rfl
  exact ⟨⟨c,t,skip_eq,h⟩,skip_eq⟩

theorem skip_grouped (t y : List CodeUnit) : skip (grouped t ++ y) = grouped t ++ y := rfl

theorem dots_written (y : List CodeUnit) : Grammar.opens ((Item.spread e).written ++ y) = false ∧
    skip ((Item.spread e).written ++ y) = (Item.spread e).written ++ y := ⟨rfl,rfl⟩

theorem rereads_list {items : List Item} (h : ∀ p ∈ items.flatMap Item.parts, Rereads p) : Rereads (.list items) := by
  refine rereads_of_primary fun n w length hw => ?_
  simp only [Expr.written,itemsWritten_eq,List.length_cons,List.length_append,List.length_nil,List.cons_append,
    List.append_assoc,List.nil_append] at length ⊢
  obtain ⟨closes,skip_close⟩ := closes_cons (c := CodeUnit.ofChar ']') (by simp) w
  have lists := lists_items h (n := n) (by omega) closes
  have close := outcome_close (w := w) (c := CodeUnit.ofChar ']') rfl
  refine outcome_primary_list _ _ ?_
  rcases items with _ | ⟨e | e,rest⟩
  · have expression : outcome (rules n).expression (CodeUnit.ofChar ']' :: w) = none := Apt.expression_refuses rfl
    have items : outcome (sequence (item (rules n))) (CodeUnit.ofChar ']' :: w) = none :=
      Refuses.bind (skip_close ▸ items_refuse closes) _
    simp [listDisplay,listed,outcome_bind,outcome_maybe_bind,outcome_map,outcome_unit_self,outcome_blanks,skip_close,
      expression,outcome_maybe,items,close]
  · obtain ⟨opens,blanks⟩ := dots_written (e := e) (following Item.written rest (CodeUnit.ofChar ']' :: w))
    have expression : outcome (rules n).expression _ = none := Apt.expression_refuses opens
    rw [listed_append]
    simp only [listDisplay,outcome_bind,outcome_maybe_bind,outcome_unit_self,Option.bind_some,outcome_blanks,
      blanks,expression,outcome_maybe,lists.sequence closes,close,outcome_pure,Option.getD_some]
  · have stops := following_stops Item.written rest closes
    have head := length_head_le Item.written (.one e) rest
    have first := expression_grouped (h e (by simp [Item.parts])) (n := n) (Nat.le_trans head (by omega)) stops.ends
    have clauses : outcome (clauses (rules n).unary) _ = none := stops.clauses_refuses
    rw [listed_append]
    simp only [Item.written,listDisplay,outcome_bind,outcome_maybe_bind,outcome_unit_self,Option.bind_some,outcome_blanks,
      skip_grouped,first,outcome_orElse,clauses,Option.bind_none,Option.none_or,lists.tail.more closes,close,outcome_pure]

/-- What a brace opens that does not close it at once. -/
theorem outcome_primary_braces {t : List CodeUnit} (hs : skip t = t) (ht : t.head? ≠ some (CodeUnit.ofChar '}'))
    (h : outcome (maybe (rules n).expression >>= fun
      | some first => braceDisplayFrom (rules n) (rules n).unary first
      | none => braceDisplayFromSpread (rules n)) t = some (e,w)) :
    outcome (primary (rules n) (rules n).unary) (CodeUnit.ofChar '{' :: t) = some (e,w) := by
  have brace : outcome (unit '}') t = none := refuses_unit.mpr ht
  refine outcome_primary_brace _ _ ?_
  have steady (o : Option Expr) : Steady (match o with
      | some first => braceDisplayFrom (rules n) (rules n).unary first
      | none => braceDisplayFromSpread (rules n)) := by cases o <;> infer_instance
  simp only [braceDisplay,outcome_bind,outcome_orElse,outcome_unit_self,Option.bind_some,outcome_blanks,hs,brace,
    Option.bind_none,Option.none_or]
  rw [outcome_bind] at h
  exact h

theorem rereads_set {items : List Item} (h : ∀ p ∈ items.flatMap Item.parts, Rereads p)
    (mixed : items.all isSpread = false) : Rereads (.set items) := by
  refine rereads_of_primary fun n w length hw => ?_
  simp only [Expr.written,itemsWritten_eq,List.length_cons,List.length_append,List.length_nil,List.cons_append,
    List.append_assoc,List.nil_append] at length ⊢
  obtain ⟨closes,-⟩ := closes_cons (c := CodeUnit.ofChar '}') (by simp) w
  have lists := lists_items h (n := n) (by omega) closes
  have close := outcome_close (w := w) (c := CodeUnit.ofChar '}') rfl
  rcases items with _ | ⟨e | e,rest⟩
  · cases mixed
  · obtain ⟨opens,blanks⟩ := dots_written (e := e) (following Item.written rest (CodeUnit.ofChar '}' :: w))
    have expression : outcome (rules n).expression _ = none := Apt.expression_refuses opens
    have sequence := lists.sequence closes
    have mapping : outcome (spreadMapping (rules n)) _ = none :=
      (spreadMapping_refuses_iff expression sequence close).2.mpr mixed
    rw [listed_append]
    refine outcome_primary_braces blanks (head?_ne (by decide)) ?_
    simp only [outcome_maybe_bind,expression,braceDisplayFromSpread_eq,outcome_orElse,mapping,Option.none_or,
      outcome_bind,sequence,close,Option.bind_some,outcome_pure]
  · have stops := following_stops Item.written rest closes
    have head := length_head_le Item.written (.one e) rest
    have first := expression_grouped (h e (by simp [Item.parts])) (n := n) (Nat.le_trans head (by omega)) stops.ends
    have colon : outcome (colonValue (rules n)) _ = none := colonValue_refuses stops.head_ne_colon
    have clauses : outcome (clauses (rules n).unary) _ = none := stops.clauses_refuses
    rw [listed_append]
    refine outcome_primary_braces (skip_grouped _ _) (head?_ne (by decide)) ?_
    simp only [Item.written,outcome_maybe_bind,first,braceDisplayFrom,colon,outcome_orElse,clauses,Option.none_or,
      outcome_bind,Option.bind_none,lists.tail.more closes,close,Option.bind_some,outcome_pure]

theorem outcome_colonValue (h : Rereads e) (hl : (grouped e.written).length ≤ n) (hx : Grammar.Ends 7 x) :
    outcome (colonValue (rules n)) (CodeUnit.ofChar ':' :: (grouped e.written ++ x)) = some (e,x) := by
  have colon (t : List CodeUnit) : skip (CodeUnit.ofChar ':' :: t) = CodeUnit.ofChar ':' :: t := rfl
  simp only [colonValue,outcome_bind,outcome_blanks,colon,Option.bind_some,outcome_unit_self,skip_grouped,
    expression_grouped h hl hx]

theorem rereads_mapping {entries : List Entry} (h : ∀ p ∈ entries.flatMap Entry.parts, Rereads p) :
    Rereads (.mapping entries) := by
  refine rereads_of_primary fun n w length hw => ?_
  simp only [Expr.written,entriesWritten_eq,List.length_cons,List.length_append,List.length_nil,List.cons_append,
    List.append_assoc,List.nil_append] at length ⊢
  obtain ⟨closes,-⟩ := closes_cons (c := CodeUnit.ofChar '}') (by simp) w
  have lists := lists_entries h (n := n) (by omega) closes
  have close := outcome_close (w := w) (c := CodeUnit.ofChar '}') rfl
  rcases entries with _ | ⟨e | ⟨key,value⟩,rest⟩
  · exact outcome_primary_brace _ _ rfl
  · obtain ⟨opens,blanks⟩ := dots_written (e := e) (following Entry.written rest (CodeUnit.ofChar '}' :: w))
    have expression : outcome (rules n).expression _ = none := Apt.expression_refuses opens
    rw [listed_append]
    refine outcome_primary_braces blanks (head?_ne (by decide)) ?_
    simp only [Item.written] at expression
    have sequence := lists.sequence closes
    simp only [Entry.written] at sequence ⊢
    simp only [outcome_maybe_bind,expression,braceDisplayFromSpread_eq,spreadMapping,outcome_orElse,outcome_bind,
      sequence,close,Option.bind_some,outcome_pure,Option.some_or]
  · have stops := following_stops Entry.written rest closes
    have head := length_head_le Entry.written (.pair key value) rest
    have bound : (Entry.pair key value).written.length ≤ n := Nat.le_trans head (by omega)
    simp only [Entry.written,List.length_append,List.length_cons] at bound
    have first := expression_grouped (h key (by simp [Entry.parts])) (n := n) (w := CodeUnit.ofChar ':' ::
      (grouped value.written ++ following Entry.written rest (CodeUnit.ofChar '}' :: w))) (by omega) (Nat.lt_succ_self 7)
    have second := outcome_colonValue (h value (by simp [Entry.parts])) (n := n) (by omega) stops.ends
    have clauses : outcome (clauses (rules n).unary) _ = none := stops.clauses_refuses
    rw [listed_append]
    refine outcome_primary_braces (by rw [Entry.written,List.append_assoc]; rfl) (head?_ne (by decide)) ?_
    simp only [Entry.written,List.append_assoc,List.cons_append,outcome_maybe_bind,first,braceDisplayFrom,second,
      outcome_orElse,clauses,Option.none_or,outcome_bind,Option.bind_none,lists.tail.more closes,close,
      Option.bind_some,outcome_pure]

/-! ## Comprehensions, calls, indices and slices -/

theorem outcome_word (s : Text) (h : ¬ w.head?.any CodeUnit.inName) : outcome (word s) (s.units ++ w) = some ((),w) :=
  reads_nil.mp (reads_word.mpr ⟨rfl,by simpa using h⟩)

theorem name_written {name : Text} (h : isName name) (hx : ¬ x.head?.any CodeUnit.inName) :
    skip (name.units ++ x) = name.units ++ x ∧ outcome identifier (name.units ++ x) = some (name,x) := by
  have read : Reads [] identifier (name.units ++ x) name x := reads_identifier.mpr ⟨rfl,h,by simpa using hx⟩
  obtain ⟨u,y,e,letter⟩ := identifier_head read
  refine ⟨?_,reads_nil.mp read⟩
  rw [e]
  refine skip_cons (Bool.eq_false_iff.mpr fun hu => ?_)
  simp only [isSpace,Bool.or_eq_true,beq_iff_eq] at hu
  rcases hu with ((rfl | rfl) | rfl) | rfl <;> exact absurd letter (by decide)

theorem targets_written {names : List Text} (ne : names ≠ []) (h : ∀ name ∈ names, isName name) (y : List CodeUnit) :
    outcome targets (listed (names.map Text.units) ++ ((" in " : Text).units ++ y)) =
        some (names,(" in " : Text).units ++ y) ∧
      skip (listed (names.map Text.units) ++ ((" in " : Text).units ++ y)) =
        listed (names.map Text.units) ++ ((" in " : Text).units ++ y) := by
  have lists : Lists identifier Text.units names ((" in " : Text).units ++ y) := by
    refine fun name hn x hx => name_written (h name hn) ?_
    rcases hx with rfl | hx
    · exact Bool.false_ne_true
    · rw [hx]
      exact Bool.false_ne_true
  have stop : Reader.Refuses (do comma; identifier) ((" in " : Text).units ++ y) := by
    refine (comma_refuses ?_).bind _
    exact head?_ne (u := CodeUnit.ofChar 'i') (by decide)
  obtain ⟨head,rest,rfl⟩ := List.exists_cons_of_ne_nil ne
  have first := lists head List.mem_cons_self _ (follows_following Text.units rest _)
  rw [listed_append]
  refine ⟨?_,first.1⟩
  have letter := identifier_head (reads_nil.mpr first.2)
  have bracket : outcome (unit '(') (head.units ++ following Text.units rest ((" in " : Text).units ++ y)) = none := by
    obtain ⟨u,z,e,hu⟩ := letter
    rw [e]
    refine unit_refuses_cons ?_
    rintro rfl
    exact absurd hu (by decide)
  simp only [targets_eq,names,outcome_orElse,outcome_bind,bracket,Option.bind_none,Option.none_or,first.2,
    Option.bind_some,outcome_many.mpr ⟨lists.tail.many,stop⟩,outcome_pure]

theorem each_written {targets : List Text} {iterable : Expr} (hc : (Clause.each targets iterable).isWellFormed)
    (h : Rereads iterable) (hl : (Clause.each targets iterable).written.length ≤ n) (hx : Grammar.Ends 6 x) :
    outcome (eachClause (rules n).unary) (skip ((Clause.each targets iterable).written ++ x)) =
      some (.each targets iterable,x) := by
  simp only [Clause.isWellFormed,Bool.and_eq_true,Bool.not_eq_true',List.all_eq_true,List.isEmpty_eq_false_iff] at hc
  simp only [Clause.written,List.length_append] at hl
  obtain ⟨all,blanks⟩ := targets_written hc.1.1 hc.1.2 (grouped iterable.written ++ x)
  have start : skip ((Clause.each targets iterable).written ++ x) = ("for" : Text).units ++
      CodeUnit.ofChar ' ' :: (listed (targets.map Text.units) ++ ((" in " : Text).units ++ (grouped iterable.written ++ x))) := by
    rw [Clause.written,List.append_assoc,List.append_assoc,List.append_assoc]
    rfl
  have space (t : List CodeUnit) : skip (CodeUnit.ofChar ' ' :: t) = skip t := rfl
  have middle (t : List CodeUnit) : skip ((" in " : Text).units ++ t) = ("in" : Text).units ++ CodeUnit.ofChar ' ' :: t := rfl
  have plain {t : List CodeUnit} : ¬ (CodeUnit.ofChar ' ' :: t).head?.any CodeUnit.inName := Bool.false_ne_true
  rw [start]
  simp only [eachClause,outcome_bind,outcome_word _ plain,Option.bind_some,outcome_blanks,space,blanks,all,middle,
    skip_grouped,logicalOr_grouped h (show _ ≤ n by omega) hx,outcome_pure]

theorem clause_written {c : Clause} (hc : c.isWellFormed) (h : ∀ p ∈ c.parts, Rereads p) (hl : c.written.length ≤ n)
    (hx : Grammar.Ends 6 x) : outcome (clause (rules n).unary) (c.written ++ x) = some (c,x) := by
  cases c with
  | each targets iterable =>
    simp only [clause,afterBlanks,outcome_bind,outcome_blanks,Option.bind_some,outcome_orElse,
      each_written hc (h iterable List.mem_cons_self) hl hx,Option.some_or]
  | when test =>
    rw [Clause.written,List.length_append] at hl
    have start : skip ((Clause.when test).written ++ x) = ("if" : Text).units ++ CodeUnit.ofChar ' ' :: (grouped test.written ++ x) := by
      rw [Clause.written,List.append_assoc]
      rfl
    have space (t : List CodeUnit) : skip (CodeUnit.ofChar ' ' :: t) = skip t := rfl
    have plain {t : List CodeUnit} : ¬ (CodeUnit.ofChar ' ' :: t).head?.any CodeUnit.inName := Bool.false_ne_true
    have each : outcome (eachClause (rules n).unary) (("if" : Text).units ++ CodeUnit.ofChar ' ' :: (grouped test.written ++ x)) = none :=
      eachClause_refuses (head?_ne (by decide))
    simp only [clause,afterBlanks,outcome_bind,outcome_blanks,Option.bind_some,start,outcome_orElse,each,Option.none_or,
      whenClause,outcome_word _ plain,space,skip_grouped,
      logicalOr_grouped (h test List.mem_cons_self) (show _ ≤ n by omega) hx,outcome_pure]

theorem clauses_written {cs : List Clause} (start : startsWithFor cs) (good : cs.all Clause.isWellFormed)
    (h : ∀ p ∈ cs.flatMap Clause.parts, Rereads p) (hl : (cs.flatMap Clause.written).length ≤ n) (hw : Closes w) :
    outcome (clauses (rules n).unary) (cs.flatMap Clause.written ++ w) = some (cs,w) := by
  have run : ∀ cs : List Clause, cs.all Clause.isWellFormed → (∀ p ∈ cs.flatMap Clause.parts, Rereads p) →
      (cs.flatMap Clause.written).length ≤ n → outcome (many (clause (rules n).unary)) (cs.flatMap Clause.written ++ w) =
        some (cs,w) ∧ Grammar.Ends 6 (cs.flatMap Clause.written ++ w) := by
    intro cs good h hl
    rw [outcome_many]
    induction cs with
    | nil => exact ⟨⟨.nil w,Stops.clause_refuses (.inl hw)⟩,(Stops.ends (.inl hw)).mono (by decide)⟩
    | cons c cs ih =>
      rw [List.all_cons,Bool.and_eq_true] at good
      rw [List.flatMap_cons,List.length_append] at hl
      rw [List.flatMap_cons,List.forall_mem_append] at h
      obtain ⟨⟨rest,refuses⟩,ends⟩ := ih good.2 h.2 (by omega)
      have first : outcome (clause (rules n).unary) _ = _ := clause_written (c := c) good.1 h.1 (by omega) ends
      rw [List.flatMap_cons,List.append_assoc]
      exact ⟨⟨.cons first rest,refuses⟩,clause_start (reads_nil.mpr first)⟩
  match cs, start with
  | .each targets iterable :: cs, _ =>
    rw [List.all_cons,Bool.and_eq_true] at good
    rw [List.flatMap_cons,List.length_append] at hl
    rw [List.flatMap_cons,List.forall_mem_append] at h
    obtain ⟨rest,ends⟩ := run cs good.2 h.2 (Nat.le_trans (Nat.le_add_left ..) hl)
    have first := each_written good.1 (h.1 iterable List.mem_cons_self) (Nat.le_trans (Nat.le_add_right ..) hl) ends
    rw [List.flatMap_cons,List.append_assoc,clauses_eq]
    simp only [outcome_bind,outcome_blanks,Option.bind_some,first,rest,outcome_pure]

theorem rereads_comprehension {kind : Collection} {element : Expr} {cs : List Clause} (start : startsWithFor cs)
    (good : cs.all Clause.isWellFormed) (he : Rereads element) (h : ∀ p ∈ cs.flatMap Clause.parts, Rereads p) :
    Rereads (.comprehension kind element cs) := by
  refine rereads_of_primary fun n w length hw => ?_
  simp only [Expr.written,clausesWritten_eq,List.length_cons,List.length_append,List.length_nil,List.cons_append,
    List.append_assoc,List.nil_append] at length ⊢
  have closes : Closes (kind.closing :: w) := by
    cases kind
    · exact (closes_cons (by simp [Collection.closing]) w).1
    · exact (closes_cons (by simp [Collection.closing]) w).1
  have close : outcome (close kind.closing) (kind.closing :: w) = some ((),w) := outcome_close (by cases kind <;> rfl)
  have last := clauses_written start good h (n := n) (by omega) closes
  have iterates := clauses_start (reads_nil.mpr last)
  have first := expression_grouped he (n := n) (by omega) iterates.ends
  cases kind with
  | list =>
    refine outcome_primary_list _ _ ?_
    simp only [Collection.closing] at first last close ⊢
    simp only [listDisplay,outcome_bind,outcome_maybe_bind,outcome_unit_self,Option.bind_some,outcome_blanks,skip_grouped,
      first,outcome_orElse,last,close,outcome_pure,Option.some_or]
  | set =>
    have colon : outcome (colonValue (rules n)) _ = none := colonValue_refuses iterates.head_ne_colon
    refine outcome_primary_braces (skip_grouped _ _) (head?_ne (by decide)) ?_
    simp only [Collection.closing] at first last close colon ⊢
    simp only [outcome_maybe_bind,first,braceDisplayFrom,colon,outcome_orElse,outcome_bind,last,close,Option.bind_some,
      outcome_pure,Option.some_or]

theorem rereads_mappingComprehension {key value : Expr} {cs : List Clause} (start : startsWithFor cs)
    (good : cs.all Clause.isWellFormed) (hk : Rereads key) (hv : Rereads value)
    (h : ∀ p ∈ cs.flatMap Clause.parts, Rereads p) : Rereads (.mappingComprehension key value cs) := by
  refine rereads_of_primary fun n w length hw => ?_
  simp only [Expr.written,clausesWritten_eq,List.length_cons,List.length_append,List.length_nil,List.cons_append,
    List.append_assoc,List.nil_append] at length ⊢
  obtain ⟨closes,-⟩ := closes_cons (c := CodeUnit.ofChar '}') (by simp) w
  have close := outcome_close (w := w) (c := CodeUnit.ofChar '}') rfl
  have last := clauses_written start good h (n := n) (by omega) closes
  have first := expression_grouped hk (n := n) (w := CodeUnit.ofChar ':' :: (grouped value.written ++
    (cs.flatMap Clause.written ++ CodeUnit.ofChar '}' :: w))) (by omega) (Nat.lt_succ_self 7)
  have second := outcome_colonValue hv (n := n) (by omega) (clauses_start (reads_nil.mpr last)).ends
  refine outcome_primary_braces (skip_grouped _ _) (head?_ne (by decide)) ?_
  simp only [outcome_maybe_bind,first,braceDisplayFrom,second,outcome_orElse,outcome_bind,last,close,Option.bind_some,
    outcome_pure,Option.some_or]

/-- An object in brackets with one suffix. -/
theorem rereads_of_suffix {object : Expr} {s : Suffix} {t : List CodeUnit} (ho : Rereads object)
    (he : (s.attach object).written = grouped object.written ++ t) (h : ∀ n w, t.length ≤ n →
      outcome (suffix (rules n)) (t ++ w) = some (s,w)) : Rereads (s.attach object) := by
  intro n w length hw
  rw [he,List.length_append,length_grouped] at length
  rw [he,List.append_assoc]
  obtain ⟨n,rfl⟩ : ∃ m, n = m + 1 := ⟨n - 1,by omega⟩
  have tail : outcome (many (suffix (rules n))) (t ++ w) = some ([s],w) :=
    outcome_many.mpr ⟨.cons (h n w (by omega)) (.nil w),suffix_refuses (hw.ends.mono (by decide))⟩
  have read : outcome (suffixed (rules n) (rules n).unary) (grouped object.written ++ (t ++ w)) = some (s.attach object,w) := by
    rw [suffixed_eq,outcome_bind,primary_grouped ho (by omega),Option.bind_some,outcome_bind,tail]
    rfl
  have sign : outcome (signed (rules n).unary) (grouped object.written ++ (t ++ w)) = none := rfl
  refine expression_of_unary (n := n + 1) ?_ hw.ends
  show outcome (orElse _ _) _ = _
  rw [outcome_orElse,sign,Option.none_or]
  exact power_alone read (hw.ends.mono (by decide))

theorem argument_written {a : Argument} (ha : a.isWellFormed) (h : ∀ p ∈ a.parts, Rereads p) (hl : a.written.length ≤ n)
    (hx : Grammar.Ends 7 x) : skip (a.written ++ x) = a.written ++ x ∧ outcome (argument (rules n)) (a.written ++ x) = some (a,x) := by
  cases a with
  | positional e =>
    refine ⟨skip_grouped _ _,?_⟩
    have spread : outcome (spread (rules n)) (grouped e.written ++ x) = none := spread_refuses rfl
    have keyword : outcome (keyword (rules n)) (grouped e.written ++ x) = none :=
      (identifier_refuses (t := grouped e.written ++ x) Bool.false_ne_true).bind _
    simp only [Argument.written,argument_eq,outcome_orElse,outcome_map,spread,Option.map_none,Option.none_or,keyword,
      expression_grouped (h e List.mem_cons_self) hl hx,Option.map_some]
  | keyword name e =>
    simp only [Argument.isWellFormed,Bool.and_eq_true] at ha
    simp only [Argument.written,List.length_append,List.length_cons,List.append_assoc,List.cons_append] at hl ⊢
    have plain : ¬ (CodeUnit.ofChar '=' :: (grouped e.written ++ x)).head?.any CodeUnit.inName := Bool.false_ne_true
    obtain ⟨blanks,read⟩ := name_written ha.1 plain
    refine ⟨blanks,?_⟩
    have dots : outcome (spread (rules n)) (name.units ++ CodeUnit.ofChar '=' :: (grouped e.written ++ x)) = none := by
      obtain ⟨c,y,e,hc⟩ := identifier_head (reads_nil.mpr read)
      rw [e]
      exact spread_refuses_of_head (head?_ne (letter_facts hc).2.1)
    have mark (t : List CodeUnit) : skip (CodeUnit.ofChar '=' :: t) = CodeUnit.ofChar '=' :: t := rfl
    have equal : outcome (operator () '=' (some '=')) (CodeUnit.ofChar '=' :: (grouped e.written ++ x)) =
        some ((),grouped e.written ++ x) := rfl
    simp only [argument_eq,keyword,outcome_orElse,outcome_map,dots,Option.map_none,Option.none_or,outcome_bind,read,
      Option.bind_some,outcome_blanks,mark,equal,skip_grouped,expression_grouped (h e List.mem_cons_self) (show _ ≤ n by omega) hx,
      outcome_pure,Option.some_or]
  | spread e =>
    rw [Argument.written,List.length_append] at hl
    rw [Argument.written,List.append_assoc]
    refine ⟨rfl,?_⟩
    rw [argument_eq,outcome_orElse,outcome_map,outcome_spread (h e List.mem_cons_self) (by omega) hx]
    rfl

theorem rereads_call {callee : Expr} {args : List Argument} (hc : Rereads callee) (good : args.all Argument.isWellFormed)
    (h : ∀ p ∈ args.flatMap Argument.parts, Rereads p) : Rereads (.call callee args) := by
  refine rereads_of_suffix (s := .call args) hc (t := CodeUnit.ofChar '(' :: (listed (args.map Argument.written) ++
    [CodeUnit.ofChar ')'])) (by simp only [Suffix.attach,Expr.written,argumentsWritten_eq]) fun n w length => ?_
  rw [List.length_cons,List.length_append] at length
  obtain ⟨closes,blanks⟩ := closes_cons (c := CodeUnit.ofChar ')') (by simp) w
  have lists : Lists (argument (rules n)) Argument.written args (CodeUnit.ofChar ')' :: w) := fun a ha x hx =>
    argument_written (List.all_eq_true.mp good a ha) (fun p hp => h p (List.mem_flatMap.mpr ⟨a,ha,hp⟩))
      (Nat.le_trans (length_le_listed (List.mem_map_of_mem ha)) (by omega)) (hx.stops closes).ends
  obtain ⟨skip_args,o,read,rfl⟩ := lists.parts closes blanks (blanks ▸ Stops.argument_refuses (.inl closes))
  have close := outcome_close (w := w) (c := CodeUnit.ofChar ')') rfl
  have bracket (t : List CodeUnit) : skip (CodeUnit.ofChar '(' :: t) = CodeUnit.ofChar '(' :: t := rfl
  rw [List.cons_append,List.append_assoc,List.singleton_append]
  simp only [suffix,afterBlanks,outcome_bind,outcome_blanks,bracket,Option.bind_some,outcome_orElse,callSuffix,
    outcome_unit_self,skip_args,read,close,outcome_pure,Option.some_or]

/-- The call is refused where a square bracket starts. -/
theorem outcome_suffix_bracket {s : Suffix} {t : List CodeUnit}
    (h : outcome (bracketSuffix (rules n)) (CodeUnit.ofChar '[' :: t) = some (s,w)) :
    outcome (suffix (rules n)) (CodeUnit.ofChar '[' :: t) = some (s,w) := by
  have bracket : skip (CodeUnit.ofChar '[' :: t) = CodeUnit.ofChar '[' :: t := rfl
  have call : outcome (callSuffix (rules n)) (CodeUnit.ofChar '[' :: t) = none := (unit_refuses_cons (by decide)).bind _
  simp only [suffix,afterBlanks,outcome_bind,outcome_blanks,bracket,Option.bind_some,outcome_orElse,call,Option.none_or,h]

theorem rereads_index {object i : Expr} (ho : Rereads object) (hi : Rereads i) : Rereads (.index object i) := by
  refine rereads_of_suffix (s := .index i) ho (t := CodeUnit.ofChar '[' :: (grouped i.written ++ [CodeUnit.ofChar ']'])) rfl
    fun n w length => ?_
  rw [List.length_cons,List.length_append] at length
  have first := expression_grouped hi (n := n) (w := CodeUnit.ofChar ']' :: w) (by omega) (Nat.lt_succ_self 7)
  have bracket : skip (CodeUnit.ofChar ']' :: w) = CodeUnit.ofChar ']' :: w := rfl
  have colon : outcome (unit ':') (CodeUnit.ofChar ']' :: w) = none := unit_refuses_cons (by decide)
  have one : outcome (closeIndex (some i)) (CodeUnit.ofChar ']' :: w) = some (.index i,w) := by
    rw [closeIndex,outcome_bind,outcome_close rfl]
    rfl
  rw [List.cons_append,List.append_assoc,List.singleton_append]
  refine outcome_suffix_bracket ?_
  simp only [bracketSuffix_eq,outcome_bind,outcome_maybe,outcome_unit_self,Option.bind_some,outcome_blanks,skip_grouped,first,
    outcome_orElse,bracket,colon,Option.bind_none,Option.none_or,one]

/-- An expression, or nothing, before a colon or closing bracket. -/
theorem bound_written {o : Option Expr} {c : CodeUnit} (hc : c = CodeUnit.ofChar ':' ∨ c = CodeUnit.ofChar ']')
    (h : ∀ p ∈ o.toList, Rereads p) (hl : (boundWritten o).length ≤ n) (y : List CodeUnit) :
    skip (boundWritten o ++ c :: y) = boundWritten o ++ c :: y ∧
      outcome (maybe (rules n).expression) (boundWritten o ++ c :: y) = some (o,c :: y) := by
  rw [outcome_maybe]
  cases o with
  | none =>
    have refuses : outcome (rules n).expression (c :: y) = none :=
      Apt.expression_refuses (by rcases hc with rfl | rfl <;> rfl)
    rw [boundWritten,List.nil_append,refuses]
    exact ⟨by rcases hc with rfl | rfl <;> rfl,rfl⟩
  | some e =>
    have ends : Grammar.Ends 7 (c :: y) := by rcases hc with rfl | rfl <;> exact Nat.lt_succ_self 7
    rw [boundWritten,expression_grouped (h e (by simp)) hl ends]
    exact ⟨rfl,rfl⟩

theorem rereads_slice {object : Expr} {start stop step : Option Expr} (ho : Rereads object)
    (h1 : ∀ p ∈ start.toList, Rereads p) (h2 : ∀ p ∈ stop.toList, Rereads p) (h3 : ∀ p ∈ step.toList, Rereads p) :
    Rereads (.slice object start stop step) := by
  refine rereads_of_suffix (s := .slice start stop step) ho (t := CodeUnit.ofChar '[' :: (boundWritten start ++
    CodeUnit.ofChar ':' :: boundWritten stop ++ CodeUnit.ofChar ':' :: boundWritten step ++ [CodeUnit.ofChar ']']))
    (by rw [Suffix.attach,Expr.written]) fun n w length => ?_
  simp only [List.length_cons,List.length_append] at length
  simp only [List.cons_append,List.append_assoc,List.nil_append]
  obtain ⟨blanks1,read1⟩ := bound_written (n := n) (.inl rfl) h1 (by omega) (boundWritten stop ++ CodeUnit.ofChar ':' ::
    (boundWritten step ++ CodeUnit.ofChar ']' :: w))
  obtain ⟨blanks2,read2⟩ := bound_written (n := n) (.inl rfl) h2 (by omega) (boundWritten step ++ CodeUnit.ofChar ']' :: w)
  obtain ⟨blanks3,read3⟩ := bound_written (n := n) (.inr rfl) h3 (by omega) w
  have colon (t : List CodeUnit) : skip (CodeUnit.ofChar ':' :: t) = CodeUnit.ofChar ':' :: t := rfl
  have bracket (t : List CodeUnit) : skip (CodeUnit.ofChar ']' :: t) = CodeUnit.ofChar ']' :: t := rfl
  have last : outcome (sliceStep (rules n)) (CodeUnit.ofChar ':' :: (boundWritten step ++ CodeUnit.ofChar ']' :: w)) =
      some (step,CodeUnit.ofChar ']' :: w) := by
    simp only [sliceStep,outcome_bind,outcome_unit_self,Option.bind_some,outcome_blanks,blanks3,read3,bracket,outcome_pure]
  refine outcome_suffix_bracket ?_
  rw [bracketSuffix_eq]
  simp only [outcome_bind,outcome_unit_self,Option.bind_some,outcome_blanks,blanks1,read1,colon,blanks2,read2,
    outcome_orElse,outcome_maybe (sliceStep (rules n)),last,outcome_pure,Option.some_or]
  rfl

/-! ## Every form -/

theorem length_part_lt {p : Expr} (hp : p ∈ e.parts) : p.written.length < e.written.length := by
  have listed_lt {α : Type} (write : α → List CodeUnit) {parts : α → List Expr} {as : List α}
      (h : ∀ a, p ∈ parts a → p.written.length < (write a).length) (hp : p ∈ as.flatMap parts) :
      p.written.length < (listed (as.map write)).length := by
    obtain ⟨a,ha,hp⟩ := List.mem_flatMap.mp hp
    exact Nat.lt_of_lt_of_le (h a hp) (length_le_listed (List.mem_map_of_mem ha))
  have flat_lt {α : Type} (write : α → List CodeUnit) {as : List α} {a : α} (ha : a ∈ as)
      (h : p.written.length < (write a).length) : p.written.length < (as.flatMap write).length := by
    rw [List.flatMap_def]
    exact Nat.lt_of_lt_of_le h (List.sublist_flatten_of_mem (List.mem_map_of_mem ha)).length_le
  have clauses {cs : List Clause} (hp : p ∈ cs.flatMap Clause.parts) :
      p.written.length < (cs.flatMap Clause.written).length := by
    obtain ⟨c,hc,hp⟩ := List.mem_flatMap.mp hp
    refine flat_lt Clause.written hc ?_
    cases c <;> cases List.mem_singleton.mp hp <;> simp [Clause.written] <;> omega
  have items {items : List Item} (hp : p ∈ items.flatMap Item.parts) :
      p.written.length < (listed (items.map Item.written)).length :=
    listed_lt Item.written (fun i hp => by cases i <;> cases List.mem_singleton.mp hp <;> simp [Item.written]; omega) hp
  have bounds {o : Option Expr} (hp : p ∈ o.toList) : p.written.length < (boundWritten o).length := by
    cases o <;> simp_all [boundWritten]
  cases e with
  | literal | name => cases hp
  | list is => have := items hp; simp [Expr.written]; omega
  | set is => have := items hp; simp [Expr.written]; omega
  | mapping entries =>
    have := listed_lt Entry.written (fun i hp => by
      cases i <;> simp only [Entry.parts,List.mem_cons,List.not_mem_nil,or_false] at hp
      · cases hp; simp [Entry.written]; omega
      · simp only [Entry.written,List.length_append,List.length_cons,length_grouped]
        rcases hp with rfl | rfl <;> omega) hp
    simp [Expr.written]
    omega
  | comprehension =>
    rcases List.mem_cons.mp hp with rfl | hp
    · simp [Expr.written]; omega
    · have := clauses hp
      simp only [Expr.written,clausesWritten_eq,List.length_cons,List.length_append]
      omega
  | mappingComprehension =>
    rcases List.mem_cons.mp hp with rfl | hp
    · simp [Expr.written]; omega
    · rcases List.mem_cons.mp hp with rfl | hp
      · simp [Expr.written]; omega
      · have := clauses hp
        simp only [Expr.written,clausesWritten_eq,List.length_cons,List.length_append]
        omega
  | unary => cases List.mem_singleton.mp hp; simp [Expr.written]; omega
  | binary | logical | index =>
    simp only [Expr.parts,List.mem_cons,List.not_mem_nil,or_false] at hp
    simp only [Expr.written,List.length_append,List.length_cons,length_grouped]
    rcases hp with rfl | rfl <;> omega
  | compare first rest =>
    rcases List.mem_cons.mp hp with rfl | hp
    · simp only [Expr.written,List.length_append,length_grouped]; omega
    · obtain ⟨link,hl,rfl⟩ := List.mem_map.mp hp
      have := flat_lt linkWritten hl (by simp [linkWritten]; omega)
      simp only [Expr.written,linksWritten_eq,List.length_append]
      omega
  | conditional =>
    simp only [Expr.parts,List.mem_cons,List.not_mem_nil,or_false] at hp
    rcases hp with rfl | rfl | rfl <;> simp [Expr.written] <;> omega
  | call callee args =>
    rcases List.mem_cons.mp hp with rfl | hp
    · simp only [Expr.written,List.length_append,length_grouped]; omega
    · have := listed_lt Argument.written (fun a hp => by
        cases a <;> cases List.mem_singleton.mp hp <;> simp [Argument.written] <;> omega) hp
      simp [Expr.written]
      omega
  | slice =>
    simp only [Expr.parts,List.mem_cons,List.mem_append] at hp
    rcases hp with rfl | (hp | hp) | hp
    · simp only [Expr.written,List.length_append,length_grouped]; omega
    all_goals
      have := bounds hp
      simp [Expr.written]
      omega

/-- A well-formed expression whose numbers are small natural numbers reads back. -/
theorem rereads (e : Expr) (good : e.isWellFormed)
    (small : ∀ x, Expr.Occurs (.literal (.number x)) e → ∃ k < 2 ^ 53, x = .ofNat k) : Rereads e := by
  have parts (p : Expr) (hp : p ∈ e.parts) : Rereads p :=
    have := length_part_lt hp
    rereads p (isWellFormed_of_mem_parts good hp) fun x hx => small x (.part hp hx)
  cases e with
  | literal value => exact rereads_literal fun x hx => small x (hx ▸ .self)
  | name name => exact rereads_name good
  | list items => exact rereads_list parts
  | set items =>
    simp only [Expr.isWellFormed,Bool.and_eq_true,Bool.not_eq_true'] at good
    exact rereads_set parts good.1
  | mapping entries => exact rereads_mapping parts
  | comprehension kind element cs =>
    simp only [Expr.isWellFormed,clausesWellFormed_eq,Bool.and_eq_true] at good
    obtain ⟨he,hc⟩ := List.forall_mem_cons.mp parts
    exact rereads_comprehension good.1.2 good.2 he hc
  | mappingComprehension key value cs =>
    simp only [Expr.isWellFormed,clausesWellFormed_eq,Bool.and_eq_true] at good
    obtain ⟨hk,parts⟩ := List.forall_mem_cons.mp parts
    obtain ⟨hv,hc⟩ := List.forall_mem_cons.mp parts
    exact rereads_mappingComprehension good.1.2 good.2 hk hv hc
  | unary op argument => exact rereads_unary (parts argument List.mem_cons_self) op
  | binary op left right => exact rereads_binary (parts left (by simp [Expr.parts])) (parts right (by simp [Expr.parts])) op
  | logical op left right =>
    have hl := parts left (by simp [Expr.parts])
    have hr := parts right (by simp [Expr.parts])
    cases op with
    | and => exact rereads_and hl hr
    | or => exact rereads_or hl hr
  | compare first rest =>
    simp only [Expr.isWellFormed,Bool.and_eq_true,Bool.not_eq_true',List.isEmpty_eq_false_iff] at good
    obtain ⟨hf,hr⟩ := List.forall_mem_cons.mp parts
    exact rereads_compare hf (fun link hl => hr _ (List.mem_map_of_mem hl)) good.1.2
  | conditional test consequent alternate =>
    exact rereads_conditional (parts test (by simp [Expr.parts])) (parts consequent (by simp [Expr.parts]))
      (parts alternate (by simp [Expr.parts]))
  | call callee args =>
    simp only [Expr.isWellFormed,argumentsWellFormed_eq,Bool.and_eq_true] at good
    obtain ⟨hc,ha⟩ := List.forall_mem_cons.mp parts
    exact rereads_call hc good.2 ha
  | index object i => exact rereads_index (parts object (by simp [Expr.parts])) (parts i (by simp [Expr.parts]))
  | slice object start stop step =>
    obtain ⟨ho,h⟩ := List.forall_mem_cons.mp parts
    rw [List.forall_mem_append,List.forall_mem_append] at h
    exact rereads_slice ho h.1.1 h.1.2 h.2
termination_by e.written.length

namespace Grammar

/-- Well-formed trees are what the grammar expresses, each by the text that it is written as, and they
are all that it produces. -/
theorem parseExpression_exact :
    (∀ e : Expr, e.isWellFormed → (∀ x, Expr.Occurs (.literal (.number x)) e → ∃ k < 2 ^ 53, x = .ofNat k) →
      parseExpression e.rendering = .ok e) ∧
    ∀ t e, parseExpression t = .ok e → e.isWellFormed := by
  refine ⟨fun e good small => parseExpression_of_outcome ?_,fun _ _ => isWellFormed_of_parseExpression⟩
  have read := rereads e good small (e.written.length + 1) [] (Nat.lt_succ_self _) (.inl rfl)
  rwa [List.append_nil] at read

/-- The pairs, each a list of its own, whose second part holds a first part beyond 2. -/
def comparedPairs : Expr :=
  .comprehension .set (.list [.one (.name "x"),.spread (.name "y")])
    [.each ["x","y"] (.name "pairs"),.when (.compare (.literal (.number (.ofNat 2))) [(.less,.name "x"),(.member,.name "y")])]

theorem parseExpression_exact_comprehension :
    comparedPairs.rendering = "\x7b([(x),...(y)]) for x,y in (pairs) if ((2)<(x)in(y))\x7d" ∧
      parseExpression comparedPairs.rendering = .ok comparedPairs ∧ comparedPairs.isWellFormed := by
  have read : parseExpression comparedPairs.rendering = .ok comparedPairs := by
    refine parseExpression_exact.1 comparedPairs (by decide) fun x occurs => ?_
    simp [comparedPairs,Expr.occurs_iff (e := .comprehension ..),Expr.occurs_iff (e := .list _),Expr.occurs_iff (e := .compare ..),
      Expr.occurs_iff (e := .name _),Expr.occurs_iff (e := .literal _),Expr.parts,Item.parts,Clause.parts] at occurs
    exact ⟨2,by decide,occurs⟩
  exact ⟨by decide +kernel,read,parseExpression_exact.2 _ _ read⟩

end Grammar

end ConfTree
