import ConfTree.Proofs.Syntax.Ladder

/-!
# Primaries

The alternatives of a primary start with different units, so whichever takes a text is the one that
counts. What no expression starts with is refused by every rule, and a name that nothing goes on is
all that an expression reads.
-/
namespace ConfTree.Grammar

open Reader Token

set_option synthInstance.maxSize 3000

variable {v t w : List CodeUnit}

/-! ## Tokens apart -/

theorem number_refuses_cons {c : CodeUnit} {x : List CodeUnit} (digit : c.isDigit = false)
    (point : c ≠ CodeUnit.ofChar '.') : Refuses number (c :: x) :=
  number_refuses (by simp [digit]) fun _ e => (point (List.cons.inj e).1).elim

theorem quoted_refuses (double : t.head? ≠ some (CodeUnit.ofChar '"'))
    (one : t.head? ≠ some (CodeUnit.ofChar '\'')) : Refuses quoted t :=
  refuses_orElse.mpr ⟨quotedBy_refuses double,quotedBy_refuses one⟩

theorem constant_refuses_of_words (h : ∀ s ∈ (["true","false","null"] : List Text), Refuses (word s) t) :
    Refuses constant t :=
  refuses_orElse.mpr ⟨(h _ (by simp)).bind _,refuses_orElse.mpr ⟨(h _ (by simp)).bind _,(h _ (by simp)).bind _⟩⟩

theorem constant_refuses (letter : ¬ t.head?.any CodeUnit.startsName) : Refuses constant t := by
  refine constant_refuses_of_words fun s hs => ?_
  have head {d : CodeUnit} {y : List CodeUnit} (e : s.units = d :: y) (hd : d.startsName) : Refuses (word s) t :=
    word_refuses e fun e => letter (by simp [e,hd])
  simp only [List.mem_cons,List.not_mem_nil,or_false] at hs
  rcases hs with rfl | rfl | rfl <;> exact head rfl (by decide)

/-- Names are no constants. -/
theorem constant_refuses_name {name : Text} (h : Reads v identifier t name w) : Refuses constant t := by
  obtain ⟨rfl,hn,hw⟩ := reads_identifier.mp (reads_nil.mpr (Local.cut h))
  rw [List.append_nil] at hw
  refine constant_refuses_of_words fun s hs => ?_
  by_contra hword
  obtain ⟨_,y,hword⟩ := not_refuses_iff.mp hword
  obtain ⟨e,hy⟩ := reads_word.mp hword
  rw [List.append_nil] at hy
  have run : ∀ s ∈ (["true","false","null"] : List Text), s.units.all (·.inName) ∧ isName s = false := by decide
  have all : ∀ u ∈ name.units, u.inName := by
    obtain ⟨_ | ⟨u,x⟩⟩ := name
    · simp
    · simp [isName] at hn
      exact List.forall_mem_cons.mpr ⟨inName_of_startsName hn.2.1,hn.2.2⟩
  have same := takeWhile_of_run (List.all_eq_true.mp (run s hs).1) hy
  rw [← e,takeWhile_of_run all hw] at same
  obtain ⟨units⟩ := name
  obtain ⟨units'⟩ := s
  cases same
  rw [(run _ hs).2] at hn
  cases hn

theorem word_refuses_word {s s' : Text} {b : Unit} (h : Reads v (word s') t b w)
    (hs : ¬ s.units <+: s'.units ∧ ¬ s'.units <+: s.units) : outcome (word s) t = none := by
  refine Refuses.bind (refuses_literal.mpr fun hp => ?_) _
  rw [(reads_word.mp h).1] at hp
  rcases List.prefix_or_prefix_of_prefix hp (List.prefix_append ..) with h | h
  · exact hs.1 h
  · exact hs.2 h

instance : Local constant where
  cut {v t e w} h := by
    simp only [constant,reads_orElse,reads_bind,reads_pure] at h
    rcases h with ⟨_,x,h,rfl,rfl⟩ | ⟨-,⟨_,x,h,rfl,rfl⟩ | ⟨-,_,x,h,rfl,rfl⟩⟩
    · simp [constant,outcome_orElse,outcome_map,Local.cut h]
    · simp [constant,outcome_orElse,outcome_map,Local.cut h,word_refuses_word (s := "true") h (by decide)]
    · simp [constant,outcome_orElse,outcome_map,Local.cut h,word_refuses_word (s := "true") h (by decide),
        word_refuses_word (s := "false") h (by decide)]

theorem constant_head {e : Expr} (h : Reads v constant t e w) : ∃ c x, t = c :: x ∧ c.startsName := by
  simp only [constant,reads_orElse,reads_bind,reads_word] at h
  rcases h with ⟨_,x,⟨rfl,-⟩,-⟩ | ⟨-,⟨_,x,⟨rfl,-⟩,-⟩ | ⟨-,_,x,⟨rfl,-⟩,-⟩⟩ <;>
    exact ⟨_,_,rfl,by decide⟩

theorem identifier_head {name : Text} (h : Reads v identifier t name w) : ∃ c x, t = c :: x ∧ c.startsName := by
  obtain ⟨rfl,hn,-⟩ := reads_identifier.mp h
  obtain ⟨_ | ⟨u,y⟩⟩ := name
  · simp [isName] at hn
  · exact ⟨u,y ++ w,rfl,by simp_all [isName]⟩

theorem quoted_head {s : Text} (h : Reads v quoted t s w) :
    ∃ c x, t = c :: x ∧ (c = CodeUnit.ofChar '"' ∨ c = CodeUnit.ofChar '\'') := by
  rcases reads_orElse.mp h with h | ⟨-,h⟩
  · obtain ⟨x,rfl⟩ := quotedBy_head h
    exact ⟨_,x,rfl,.inl rfl⟩
  · obtain ⟨x,rfl⟩ := quotedBy_head h
    exact ⟨_,x,rfl,.inr rfl⟩

/-- A letter is no digit, point or quote. -/
theorem letter_facts {c : CodeUnit} (h : c.startsName) : c.isDigit = false ∧ c ≠ CodeUnit.ofChar '.' ∧
    c ≠ CodeUnit.ofChar '"' ∧ c ≠ CodeUnit.ofChar '\'' := by
  refine ⟨?_,?_,?_,?_⟩
  · simp only [CodeUnit.startsName,CodeUnit.isLetter,CodeUnit.isDigit,Bool.or_eq_true,Bool.and_eq_true,
      Bool.and_eq_false_iff,decide_eq_true_eq,decide_eq_false_iff_not,beq_iff_eq] at h ⊢
    simp only [UInt16.le_iff_toNat_le,← UInt16.toNat_inj] at h ⊢
    simp at h ⊢
    omega
  all_goals
    rintro rfl
    exact absurd h (by decide)

/-- A bracket or sign starts no token. -/
theorem token_refuses_mark {c : CodeUnit} {x : List CodeUnit}
    (hc : c ∈ [CodeUnit.ofChar '[',CodeUnit.ofChar '{',CodeUnit.ofChar '(',CodeUnit.ofChar '-',CodeUnit.ofChar '+',
      CodeUnit.ofChar '!']) :
    Refuses number (c :: x) ∧ Refuses quoted (c :: x) ∧ Refuses constant (c :: x) ∧ Refuses identifier (c :: x) := by
  have facts : ∀ c ∈ [CodeUnit.ofChar '[',CodeUnit.ofChar '{',CodeUnit.ofChar '(',CodeUnit.ofChar '-',
      CodeUnit.ofChar '+',CodeUnit.ofChar '!'], c.isDigit = false ∧ c ≠ CodeUnit.ofChar '.' ∧
        c ≠ CodeUnit.ofChar '"' ∧ c ≠ CodeUnit.ofChar '\'' ∧ c.startsName = false := by
    simp only [List.forall_mem_cons,List.not_mem_nil,false_imp_iff,implies_true,and_true]
    decide
  obtain ⟨digit,point,double,one,letter⟩ := facts c hc
  exact ⟨number_refuses_cons digit point,quoted_refuses (head?_ne double) (head?_ne one),
    constant_refuses (by simp [letter]),identifier_refuses (by simp [letter])⟩

/-! ## What an expression starts with -/

/-- Whether an expression can start so. -/
def opens : List CodeUnit → Bool
  | [] => false
  | u :: x =>
    u.isDigit || (u == '.' && x.head?.any CodeUnit.isDigit) || u == '"' || u == '\'' || u.startsName ||
      u == '[' || u == '{' || u == '(' || u == '-' || u == '+' || u == '!'

theorem head_ne_of_opens {c : CodeUnit} (h : opens t) (hc : ∀ x, opens (c :: x) = false) : t.head? ≠ some c := by
  intro e
  cases t with
  | nil => cases e
  | cons u x => cases e; rw [hc] at h; cases h

section

variable (r : Rules) [Steady r.expression] (u : Reader Expr) [Steady u]

theorem primary_refuses (h : opens t = false) : Refuses (primary r u) t := by
  simp only [primary,refuses_orElse,refuses_map]
  cases t with
  | nil =>
    exact ⟨number_refuses (by simp) (by simp),quoted_refuses (by simp) (by simp),constant_refuses (by simp),
      identifier_refuses (by simp),(refuses_unit.mpr (by simp)).bind _,(refuses_unit.mpr (by simp)).bind _,
      (refuses_unit.mpr (by simp)).bind _⟩
  | cons c x =>
    simp only [opens,Bool.or_eq_false_iff,beq_eq_false_iff_ne] at h
    obtain ⟨⟨⟨⟨⟨⟨⟨⟨⟨⟨digit,point⟩,double⟩,one⟩,letter⟩,bracket⟩,brace⟩,paren⟩,-⟩,-⟩,-⟩ := h
    refine ⟨number_refuses (by simp [digit]) fun y e => ?_,quoted_refuses (head?_ne double) (head?_ne one),
      constant_refuses (by simp [letter]),identifier_refuses (by simp [letter]),(unit_refuses_cons bracket).bind _,
      (unit_refuses_cons brace).bind _,(unit_refuses_cons paren).bind _⟩
    cases e
    simpa using point

/-! ## One alternative -/

theorem outcome_primary_number {n : Number} (h : outcome number t = some (n,w)) :
    outcome (primary r u) t = some (.literal (.number n),w) := by
  simp [primary,outcome_orElse,outcome_map,h]

theorem outcome_primary_quoted {s : Text} (h : outcome quoted t = some (s,w)) :
    outcome (primary r u) t = some (.literal (.text s),w) := by
  have number : outcome number t = none := by
    obtain ⟨c,x,rfl,rfl | rfl⟩ := quoted_head (reads_nil.mpr h) <;> exact number_refuses_cons rfl (by decide)
  simp [primary,outcome_orElse,outcome_map,number,h]

theorem word_like {c : CodeUnit} {x : List CodeUnit} (hc : c.startsName) :
    outcome number (c :: x) = none ∧ outcome quoted (c :: x) = none := by
  obtain ⟨digit,point,double,one⟩ := letter_facts hc
  exact ⟨number_refuses_cons digit point,quoted_refuses (head?_ne double) (head?_ne one)⟩

theorem outcome_primary_constant {e : Expr} (h : outcome constant t = some (e,w)) :
    outcome (primary r u) t = some (e,w) := by
  obtain ⟨c,x,rfl,hc⟩ := constant_head (reads_nil.mpr h)
  simp [primary,outcome_orElse,outcome_map,word_like hc,h]

theorem outcome_primary_name {name : Text} (h : outcome identifier t = some (name,w)) :
    outcome (primary r u) t = some (.name name,w) := by
  have constant : outcome constant t = none := constant_refuses_name (reads_nil.mpr h)
  obtain ⟨c,x,rfl,hc⟩ := identifier_head (reads_nil.mpr h)
  simp [primary,outcome_orElse,outcome_map,word_like hc,constant,h]

theorem outcome_primary_list {e : Expr} (h : outcome (listDisplay r u) ('[' :: t) = some (e,w)) :
    outcome (primary r u) ('[' :: t) = some (e,w) := by
  obtain ⟨number,quoted,constant,identifier⟩ := token_refuses_mark (x := t) (c := '[') (by simp)
  simp only [Refuses] at number quoted constant identifier
  simp [primary,outcome_orElse,outcome_map,number,quoted,constant,identifier,h]

theorem outcome_primary_brace {e : Expr} (h : outcome (braceDisplay r u) ('{' :: t) = some (e,w)) :
    outcome (primary r u) ('{' :: t) = some (e,w) := by
  obtain ⟨number,quoted,constant,identifier⟩ := token_refuses_mark (x := t) (c := '{') (by simp)
  have list : outcome (listDisplay r u) ('{' :: t) = none := Refuses.bind (unit_refuses_cons (by decide)) _
  simp only [Refuses] at number quoted constant identifier
  simp [primary,outcome_orElse,outcome_map,number,quoted,constant,identifier,list,h]

theorem outcome_primary_parenthesized {e : Expr} (h : outcome (parenthesized r) ('(' :: t) = some (e,w)) :
    outcome (primary r u) ('(' :: t) = some (e,w) := by
  obtain ⟨number,quoted,constant,identifier⟩ := token_refuses_mark (x := t) (c := '(') (by simp)
  have list : outcome (listDisplay r u) ('(' :: t) = none := Refuses.bind (unit_refuses_cons (by decide)) _
  have brace : outcome (braceDisplay r u) ('(' :: t) = none := Refuses.bind (unit_refuses_cons (by decide)) _
  simp only [Refuses] at number quoted constant identifier
  simp [primary,outcome_orElse,outcome_map,number,quoted,constant,identifier,list,brace,h]

end

/-! ## Rules tied together -/

theorem unsigned_of_opens (h : opens t = false) : unsigned t := by
  cases t with
  | nil => simp [unsigned]
  | cons c x =>
    intro d hd e
    cases e
    simp only [opens,Bool.or_eq_false_iff,beq_eq_false_iff_ne] at h
    simp only [List.mem_cons,List.not_mem_nil,or_false] at hd
    rcases hd with rfl | rfl | rfl <;> simp at h

/-- A primary starts with no sign. -/
theorem unsigned_of_primary {r : Rules} [Steady r.expression] {u : Reader Expr} [Steady u] {e : Expr}
    (h : outcome (primary r u) t = some (e,w)) : unsigned t := by
  intro c hc head
  cases t with
  | nil => cases head
  | cons d x =>
    cases head
    obtain ⟨number,quoted,constant,identifier⟩ := token_refuses_mark (x := x) (List.mem_append_right [_,_,_] hc)
    have brackets : ∀ c ∈ [CodeUnit.ofChar '-',CodeUnit.ofChar '+',CodeUnit.ofChar '!'],
        c ≠ CodeUnit.ofChar '[' ∧ c ≠ CodeUnit.ofChar '{' ∧ c ≠ CodeUnit.ofChar '(' := by
      simp only [List.forall_mem_cons,List.not_mem_nil,false_imp_iff,implies_true,and_true]
      decide
    obtain ⟨square,brace,round⟩ := brackets _ hc
    have refuses : Refuses (primary r u) (c :: x) := by
      simp only [primary,refuses_orElse,refuses_map]
      exact ⟨number,quoted,constant,identifier,(unit_refuses_cons square).bind _,(unit_refuses_cons brace).bind _,
        (unit_refuses_cons round).bind _⟩
    rw [Refuses,h] at refuses
    cases refuses

theorem unary_alone {n : Nat} [Steady (rules n).expression] [Steady (rules n).unary] {e : Expr}
    (h : outcome (primary (rules n) (rules n).unary) t = some (e,w)) (hw : Ends 1 w) :
    outcome (rules (n + 1)).unary t = some (e,w) := by
  have signed : outcome (signed (rules n).unary) t = none := signed_refuses (unsigned_of_primary h)
  have power := power_alone (suffixed_alone h (hw.mono (by decide))) hw
  show outcome (orElse _ _) t = _
  rw [outcome_orElse,signed,Option.none_or,power]

/-- Rules whose readers are steady, refuse what no expression starts with, and read no more than a
name where nothing goes on it. -/
class Apt (r : Rules) : Prop where
  steady_expression : Steady r.expression
  steady_unary : Steady r.unary
  expression_refuses : ∀ {t}, opens t = false → Refuses r.expression t
  unary_refuses : ∀ {t}, opens t = false → Refuses r.unary t
  name_alone : ∀ {t name x e w}, outcome identifier t = some (name,x) → Ends 7 x →
    outcome r.expression t = some (e,w) → w = x

attribute [instance] Apt.steady_expression Apt.steady_unary

instance apt_rules : ∀ n, Apt (rules n)
  | 0 => ⟨inferInstanceAs (Steady giveUp),inferInstanceAs (Steady giveUp),fun _ => rfl,fun _ => rfl,fun _ _ h => nomatch h⟩
  | n + 1 => by
    have := apt_rules n
    have steady : Steady (rules (n + 1)).unary := by unfold rules; infer_instance
    have unary {t} (h : opens t = false) : Refuses (rules (n + 1)).unary t :=
      refuses_orElse.mpr ⟨signed_refuses (unsigned_of_opens h),((primary_refuses _ _ h).bind _).bind _⟩
    have expression_eq : (rules (n + 1)).expression = conditional (rules n) (rules (n + 1)).unary := rfl
    refine ⟨by rw [expression_eq]; infer_instance,steady,fun h => ?_,unary,fun {t name x e w} h hx he => ?_⟩
    · exact (((((((unary h).bind _).bind _).bind _).bind _).bind _)).bind _
    · have := unary_alone (n := n) (outcome_primary_name _ _ h) (hx.mono (by decide))
      rw [expression_eq,conditional_alone this hx] at he
      cases he
      rfl

section

variable {r : Rules} [Apt r]

theorem opens_of_outcome {e : Expr} (h : outcome r.expression t = some (e,w)) : opens t := by
  by_contra ho
  rw [Apt.expression_refuses (Bool.eq_false_iff.mpr ho)] at h
  cases h

omit [Apt r] in
theorem spread_refuses_of_head (h : t.head? ≠ some (CodeUnit.ofChar '.')) : Refuses (spread r) t := by
  refine Refuses.bind (refuses_literal.mpr ?_) _
  rintro ⟨x,rfl⟩
  exact h rfl

omit [Apt r] in
/-- Where an expression starts there are no three dots. -/
theorem spread_refuses (h : opens t) : Refuses (spread r) t := by
  refine Refuses.bind (refuses_literal.mpr ?_) _
  rintro ⟨x,rfl⟩
  exact absurd h Bool.false_ne_true

end

end ConfTree.Grammar
