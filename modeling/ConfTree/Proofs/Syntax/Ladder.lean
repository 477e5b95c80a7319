import ConfTree.Proofs.Syntax.Token

/-!
# The precedence ladder

Every rule is a steady reader. An expression starts with one of few units (`opens`), and goes on
after an operand only with an operator of its level or a tighter one (`rank`); so an operand that
nothing of the kind follows is all that the rules above it read.
-/
namespace ConfTree.Grammar

open Reader Token

/-! ## Steady rules -/

set_option synthInstance.maxSize 3000

/-- What closes round brackets around one item, which is an expression then. -/
def single : Item → Reader Expr
  | .one e => do close ')'; return e
  | .spread _ => giveUp

theorem parenthesized_eq (r : Rules) : parenthesized r = (do
    unit '('
    blanks
    orElse (do unit ')'; return .list []) do
      let head ← item r
      orElse (do
        comma
        let rest ← maybe (sequence (item r))
        close ')'
        return .list (head :: rest.getD [])) (single head)) := rfl

/-- What closes square brackets around an index. -/
def closeIndex : Option Expr → Reader Suffix
  | some i => do close ']'; return .index i
  | none => giveUp

theorem bracketSuffix_eq (r : Rules) : bracketSuffix r = (do
    unit '['
    blanks
    let first ← maybe r.expression
    orElse (do
      blanks
      unit ':'
      blanks
      let stop ← maybe r.expression
      blanks
      let step ← maybe (sliceStep r)
      unit ']'
      return .slice first stop step.join) (closeIndex first)) := rfl

section

variable (r : Rules) [Steady r.expression] (u : Reader Expr) [Steady u] {α ω : Type} (p : Reader α) [Steady p]
  (op : Reader ω) [Steady op]

instance : Steady comma := by unfold comma; infer_instance
instance : Steady (more p) := by unfold more; infer_instance
instance : Steady (sequence p) := by unfold sequence; infer_instance
instance (bracket : CodeUnit) : Steady (close bracket) := by unfold close; infer_instance
instance (head : Item) : Steady (single head) := by cases head <;> unfold single <;> infer_instance
instance (first : Option Expr) : Steady (closeIndex first) := by cases first <;> unfold closeIndex <;> infer_instance
instance : Steady (spread r) := by unfold spread; infer_instance
instance : Steady (item r) := by unfold item; infer_instance
instance : Steady (colonValue r) := by unfold colonValue; infer_instance
instance : Steady (pair r) := by unfold pair; infer_instance
instance : Steady (entry r) := by unfold entry; infer_instance
instance (join : ω → Expr → Expr → Expr) : Steady (leftAssociative u op join) := by
  unfold leftAssociative; infer_instance
instance (a : ω) (mark : CodeUnit) (not : Option CodeUnit) : Steady (operator a mark not) := by
  unfold operator; infer_instance
instance : Steady (multiplicative u) := by unfold multiplicative; infer_instance
instance : Steady (additive u) := by unfold additive; infer_instance
instance : Steady compareOperator := by unfold compareOperator; infer_instance
instance : Steady (comparison u) := by unfold comparison; infer_instance
instance : Steady (logicalAnd u) := by unfold logicalAnd; infer_instance
instance : Steady (logicalOr u) := by unfold logicalOr; infer_instance
instance : Steady (conditional r u) := by unfold conditional; infer_instance
instance : Steady targets := by unfold targets; infer_instance
instance : Steady (eachClause u) := by unfold eachClause; infer_instance
instance : Steady (whenClause u) := by unfold whenClause; infer_instance
instance : Steady (clauses u) := by unfold clauses; infer_instance
instance : Steady (listDisplay r u) := by unfold listDisplay; infer_instance
instance (first : Expr) : Steady (braceDisplayFrom r u first) := by unfold braceDisplayFrom; infer_instance
instance : Steady (braceDisplayFromSpread r) := by unfold braceDisplayFromSpread; infer_instance
instance : Steady (braceDisplay r u) := by unfold braceDisplay; infer_instance
instance : Steady (parenthesized r) := by rw [parenthesized_eq]; infer_instance
instance : Steady constant := by unfold constant; infer_instance
instance : Steady (primary r u) := by unfold primary; infer_instance
instance : Steady (argument r) := by unfold argument; infer_instance
instance : Steady (callSuffix r) := by unfold callSuffix; infer_instance
instance : Steady (sliceStep r) := by unfold sliceStep; infer_instance
instance : Steady (bracketSuffix r) := by rw [bracketSuffix_eq]; infer_instance
instance : Steady (suffixed r u) := by unfold suffixed; infer_instance
instance [Steady r.unary] : Steady (power r u) := by unfold power; infer_instance
instance : Steady (signed u) := by unfold signed; infer_instance

end

theorem operator_refuses {ω : Type} {a : ω} {mark : CodeUnit} {not : Option CodeUnit} {t : List CodeUnit}
    (h : t.head? ≠ some mark) : Refuses (operator a mark not) t := (refuses_unit.mpr h).bind _

/-! ## What goes on an operand -/

/-- The level of the operator that a text starts with; 8 if it starts with none. -/
def rank : List CodeUnit → Nat
  | [] => 8
  | u :: x =>
    if u == '(' || u == '[' then 0
    else if u == '*' then (if x.head? == some '*' then 1 else 2)
    else if u == '/' || u == '%' then 2
    else if u == '+' || u == '-' then 3
    else if u == '<' || u == '>' then 4
    else if u == '=' || u == '!' then (if x.head? == some '=' then 4 else 8)
    else if u == 'i' then (if x.head? == some 'n' then 4 else 8)
    else if u == '&' then 5
    else if u == '|' then 6
    else if u == '?' then 7
    else 8

theorem rank_assign {x : List CodeUnit} (h : x.head? ≠ some (CodeUnit.ofChar '=')) : rank (CodeUnit.ofChar '=' :: x) = 8 := by
  have : rank (CodeUnit.ofChar '=' :: x) = if x.head? == some (CodeUnit.ofChar '=') then 4 else 8 := rfl
  simp [this,h]

/-- No operator up to a level goes on before the text. -/
def Ends (level : Nat) (t : List CodeUnit) : Prop := level < rank (skip t)

theorem Ends.mono {l m : Nat} {t : List CodeUnit} (h : Ends m t) (hl : l ≤ m) : Ends l t := Nat.lt_of_le_of_lt hl h

/-- Operators of a level. -/
class Level (l : outParam Nat) {ω : Type} (op : Reader ω) : Prop where
  rank_eq : ∀ {v t a w}, Reads v op t a w → rank t = l

theorem Ends.refuses {l m : Nat} {ω : Type} {op : Reader ω} [Level l op] {t : List CodeUnit} (h : Ends m t)
    (hl : l ≤ m) : Refuses op (skip t) := by
  by_contra hop
  obtain ⟨a,w,hop⟩ := not_refuses_iff.mp hop
  have := Level.rank_eq hop
  unfold Ends at h
  omega

def multiplicativeOperator : Reader BinaryOp :=
  orElse (operator .multiply '*' (some '*')) (orElse (operator .divide '/' none) (operator .modulo '%' none))

def additiveOperator : Reader BinaryOp := orElse (operator .add '+' none) (operator .subtract '-' none)

def andOperator : Reader LogicalOp := do literal "&&"; return .and

def orOperator : Reader LogicalOp := do literal "||"; return .or

theorem multiplicative_eq (u : Reader Expr) :
    multiplicative u = leftAssociative u multiplicativeOperator .binary := rfl

theorem additive_eq (u : Reader Expr) :
    additive u = leftAssociative (multiplicative u) additiveOperator .binary := rfl

theorem logicalAnd_eq (u : Reader Expr) :
    logicalAnd u = leftAssociative (comparison u) andOperator .logical := rfl

theorem logicalOr_eq (u : Reader Expr) :
    logicalOr u = leftAssociative (logicalAnd u) orOperator .logical := rfl

theorem reads_operator {ω : Type} {a b : ω} {mark : CodeUnit} {not : Option CodeUnit} {v t w : List CodeUnit} :
    Reads v (operator a mark not) t b w ↔ t = mark :: w ∧ a = b ∧ ¬ (w ++ v).head?.any fun u => some u == not := by
  simp only [operator,reads_bind,reads_unit,reads_notAhead,reads_pure]
  constructor
  · rintro ⟨-,x,rfl,-,_,⟨rfl,h⟩,rfl,rfl⟩
    exact ⟨rfl,rfl,h⟩
  · rintro ⟨rfl,rfl,h⟩
    exact ⟨(),w,rfl,(),w,⟨rfl,h⟩,rfl,rfl⟩

theorem reads_mark {ω : Type} {s : Text} {a b : ω} {v t w : List CodeUnit} :
    Reads v (do literal s; return a) t b w ↔ t = s.units ++ w ∧ a = b := by
  simp only [reads_bind,reads_literal,reads_pure]
  constructor
  · rintro ⟨-,x,rfl,rfl,rfl⟩
    exact ⟨rfl,rfl⟩
  · rintro ⟨rfl,rfl⟩
    exact ⟨(),w,rfl,rfl,rfl⟩

instance {ω : Type} (a : ω) (mark : CodeUnit) (not : Option CodeUnit) : Consuming (operator a mark not) := by
  unfold operator; infer_instance
instance {ω : Type} (a : ω) (mark : CodeUnit) (not : Option CodeUnit) : Local (operator a mark not) := by
  unfold operator; infer_instance
instance {ω : Type} (a : ω) (mark : CodeUnit) : Persistent (operator a mark none) := by
  have : Total (notAhead fun u => some u == none) :=
    ⟨fun t h => by simp [Refuses,outcome_notAhead] at h⟩
  unfold operator; infer_instance

instance : Steady multiplicativeOperator := by unfold multiplicativeOperator; infer_instance
instance : Consuming multiplicativeOperator := by unfold multiplicativeOperator; infer_instance
instance : Local multiplicativeOperator where
  cut {v t a w} h := by
    rw [multiplicativeOperator,outcome_orElse]
    rcases reads_orElse.mp h with h | ⟨-,h⟩
    · rw [Local.cut h,Option.some_or]
    · have mark : t.head? ≠ some (CodeUnit.ofChar '*') := by
        simp only [reads_orElse,reads_operator] at h
        rcases h with ⟨rfl,-⟩ | ⟨-,rfl,-⟩ <;> exact head?_ne (by decide)
      rw [show outcome (operator _ _ _) t = none from operator_refuses mark,Option.none_or,Local.cut h]

instance : Steady additiveOperator := by unfold additiveOperator; infer_instance
instance : Consuming additiveOperator := by unfold additiveOperator; infer_instance
instance : Local additiveOperator := by unfold additiveOperator; infer_instance

instance : Local compareOperator := by unfold compareOperator; infer_instance
instance : Consuming compareOperator := by
  have mark {s : Text} (hs : s.units ≠ []) (op : CompareOp) : Consuming (do literal s; return op) :=
    have := consuming_literal hs
    inferInstance
  have member : Consuming (do word "in"; return CompareOp.member) :=
    have := consuming_literal (s := "in") (by decide)
    have : Consuming (word "in") := by unfold word; infer_instance
    inferInstance
  have := mark (s := "==") (by decide) .equal
  have := mark (s := "!=") (by decide) .notEqual
  have := mark (s := "<=") (by decide) .lessEqual
  have := mark (s := ">=") (by decide) .greaterEqual
  have := mark (s := "<") (by decide) .less
  have := mark (s := ">") (by decide) .greater
  unfold compareOperator
  infer_instance

instance : Steady andOperator := by unfold andOperator; infer_instance
instance : Consuming andOperator :=
  have := consuming_literal (s := "&&") (by decide)
  by unfold andOperator; infer_instance
instance : Local andOperator := by unfold andOperator; infer_instance

instance : Steady orOperator := by unfold orOperator; infer_instance
instance : Consuming orOperator :=
  have := consuming_literal (s := "||") (by decide)
  by unfold orOperator; infer_instance
instance : Local orOperator := by unfold orOperator; infer_instance

instance : Level 2 multiplicativeOperator where
  rank_eq {v t a w} h := by
    simp only [multiplicativeOperator,reads_orElse,reads_operator] at h
    rcases h with ⟨rfl,-,h⟩ | ⟨-,⟨rfl,-⟩ | ⟨-,rfl,-⟩⟩
    · cases w with
      | nil => rfl
      | cons u x =>
        simp only [List.cons_append,List.head?_cons,Option.any_some,beq_iff_eq,Option.some.injEq] at h
        simp [rank,h]
        decide
    · rfl
    · rfl

instance : Level 3 additiveOperator where
  rank_eq {v t a w} h := by
    simp only [additiveOperator,reads_orElse,reads_operator] at h
    rcases h with ⟨rfl,-⟩ | ⟨-,rfl,-⟩
    · rfl
    · rfl

instance : Level 4 compareOperator where
  rank_eq {v t a w} h := by
    simp only [compareOperator,reads_orElse,reads_bind,reads_literal,reads_word] at h
    rcases h with ⟨-,_,rfl,-⟩ | ⟨-,⟨-,_,rfl,-⟩ | ⟨-,⟨-,_,rfl,-⟩ | ⟨-,⟨-,_,rfl,-⟩ | ⟨-,⟨-,_,rfl,-⟩ |
      ⟨-,⟨-,_,rfl,-⟩ | ⟨-,-,_,⟨rfl,-⟩,-⟩⟩⟩⟩⟩⟩
    all_goals rfl

instance : Level 5 andOperator where
  rank_eq h := by
    obtain ⟨rfl,-⟩ := reads_mark.mp h
    rfl

instance : Level 7 (unit '?') where
  rank_eq h := by
    obtain rfl := reads_unit.mp h
    rfl

instance : Level 6 orOperator where
  rank_eq h := by
    obtain ⟨rfl,-⟩ := reads_mark.mp h
    rfl

/-- An operator and its right operand. -/
def operand {ω : Type} (op : Reader ω) (u : Reader Expr) : Reader (ω × Expr) := do
  blanks
  let a ← op
  blanks
  return (a,← u)

theorem leftAssociative_eq {ω : Type} (u : Reader Expr) (op : Reader ω) (join : ω → Expr → Expr → Expr) :
    leftAssociative u op join = (do
      let head ← u
      let tail ← many (operand op u)
      return tail.foldl (fun left next => join next.1 left next.2) head) := rfl

theorem comparison_eq (u : Reader Expr) : comparison u = (do
    let first ← additive u
    let rest ← many (operand compareOperator (additive u))
    return if rest.isEmpty then first else .compare first rest) := rfl

instance {ω : Type} (op : Reader ω) (u : Reader Expr) [Steady op] [Steady u] : Steady (operand op u) := by
  unfold operand; infer_instance

instance {ω : Type} (op : Reader ω) (u : Reader Expr) [Steady op] [Consuming op] [Steady u] :
    Consuming (operand op u) := by
  unfold operand; infer_instance

/-! ## Operands that nothing goes on -/

section

variable {t w : List CodeUnit} {e : Expr} {ω : Type} {op : Reader ω} [Steady op] {u : Reader Expr} [Steady u]

theorem operand_refuses {k : Nat} [Level k op] (h : Ends k t) : Refuses (operand op u) t :=
  refuses_bind.mpr (.inr ⟨(),skip t,outcome_blanks t,(h.refuses (Nat.le_refl _)).bind _⟩)

theorem outcome_many_nil {α : Type} {r : Reader α} [Steady r] [Consuming r] (h : Refuses r t) :
    outcome (many r) t = some ([],t) := outcome_many.mpr ⟨.nil t,h⟩

theorem leftAssociative_alone {k : Nat} [Level k op] [Consuming op] {join : ω → Expr → Expr → Expr}
    (h : outcome u t = some (e,w)) (hw : Ends k w) : outcome (leftAssociative u op join) t = some (e,w) := by
  have refused : Refuses (operand op u) w := operand_refuses hw
  simp [leftAssociative_eq,outcome_bind,outcome_map,h,outcome_many_nil refused]

theorem multiplicative_alone (h : outcome u t = some (e,w)) (hw : Ends 2 w) :
    outcome (multiplicative u) t = some (e,w) := by
  rw [multiplicative_eq]
  exact leftAssociative_alone h hw

theorem additive_of_multiplicative (h : outcome (multiplicative u) t = some (e,w)) (hw : Ends 3 w) :
    outcome (additive u) t = some (e,w) := by
  rw [additive_eq]
  exact leftAssociative_alone h hw

theorem additive_alone (h : outcome u t = some (e,w)) (hw : Ends 3 w) : outcome (additive u) t = some (e,w) :=
  additive_of_multiplicative (multiplicative_alone h (hw.mono (by decide))) hw

theorem comparison_of_additive (h : outcome (additive u) t = some (e,w)) (hw : Ends 4 w) :
    outcome (comparison u) t = some (e,w) := by
  have refused : Refuses (operand compareOperator (additive u)) w := operand_refuses hw
  simp [comparison_eq,outcome_bind,outcome_map,h,outcome_many_nil refused]

theorem logicalAnd_of_comparison (h : outcome (comparison u) t = some (e,w)) (hw : Ends 5 w) :
    outcome (logicalAnd u) t = some (e,w) := by
  rw [logicalAnd_eq]
  exact leftAssociative_alone h hw

theorem logicalOr_of_logicalAnd (h : outcome (logicalAnd u) t = some (e,w)) (hw : Ends 6 w) :
    outcome (logicalOr u) t = some (e,w) := by
  rw [logicalOr_eq]
  exact leftAssociative_alone h hw

theorem comparison_alone (h : outcome u t = some (e,w)) (hw : Ends 4 w) : outcome (comparison u) t = some (e,w) :=
  comparison_of_additive (additive_alone h (hw.mono (by decide))) hw

theorem logicalOr_alone (h : outcome u t = some (e,w)) (hw : Ends 6 w) : outcome (logicalOr u) t = some (e,w) :=
  logicalOr_of_logicalAnd
    (logicalAnd_of_comparison (comparison_alone h (hw.mono (by decide))) (hw.mono (by decide))) hw

variable {r : Rules} [Steady r.expression]

omit [Steady u] in
theorem conditional_of_logicalOr (h : outcome (logicalOr u) t = some (e,w)) (hw : Ends 7 w) :
    outcome (conditional r u) t = some (e,w) := by
  have branch : outcome (unit '?') (skip w) = none := hw.refuses (Nat.le_refl 7)
  simp [conditional,outcome_bind,outcome_orElse,outcome_pure,outcome_blanks,branch,h]

theorem conditional_alone (h : outcome u t = some (e,w)) (hw : Ends 7 w) :
    outcome (conditional r u) t = some (e,w) :=
  conditional_of_logicalOr (logicalOr_alone h (hw.mono (by decide))) hw

/-- A call, slice or index with the blanks before it. -/
def suffix (r : Rules) : Reader Suffix := afterBlanks (orElse (callSuffix r) (bracketSuffix r))

theorem suffixed_eq (r : Rules) (u : Reader Expr) : suffixed r u = (do
    let head ← primary r u
    let suffixes ← many (suffix r)
    return suffixes.foldl Suffix.attach head) := rfl

instance : Steady (suffix r) := by unfold suffix; infer_instance

instance : Consuming (suffix r) := by
  have : Consuming (callSuffix r) := by unfold callSuffix; infer_instance
  have : Consuming (bracketSuffix r) := by rw [bracketSuffix_eq]; infer_instance
  unfold suffix afterBlanks
  infer_instance

theorem suffix_refuses (h : Ends 0 t) : Refuses (suffix r) t := by
  have head {c : CodeUnit} (hc : ∀ x, rank (c :: x) = 0) : (skip t).head? ≠ some c := by
    intro e
    cases hs : skip t with
    | nil => rw [hs] at e; cases e
    | cons u x =>
      rw [hs] at e
      cases e
      rw [Ends,hs,hc] at h
      exact Nat.lt_irrefl 0 h
  refine refuses_bind.mpr (.inr ⟨(),skip t,outcome_blanks t,refuses_orElse.mpr ⟨?_,?_⟩⟩)
  · exact (refuses_unit.mpr (head fun _ => rfl)).bind _
  · exact (refuses_unit.mpr (head fun _ => rfl)).bind _

omit [Steady u] in
theorem suffixed_alone (h : outcome (primary r u) t = some (e,w)) (hw : Ends 0 w) :
    outcome (suffixed r u) t = some (e,w) := by
  simp [suffixed_eq,outcome_bind,outcome_map,h,outcome_many_nil (suffix_refuses hw)]

instance : Level 1 (literal "**") where
  rank_eq h := by
    obtain rfl := reads_literal.mp h
    rfl

omit [Steady u] [Steady r.expression] in
theorem power_alone [Steady r.unary] (h : outcome (suffixed r u) t = some (e,w)) (hw : Ends 1 w) :
    outcome (power r u) t = some (e,w) := by
  have raised : outcome (literal "**") (skip w) = none := hw.refuses (Nat.le_refl 1)
  simp [power,outcome_bind,outcome_orElse,outcome_pure,outcome_blanks,raised,h]

/-- The text starts with no sign. -/
def unsigned (t : List CodeUnit) : Prop :=
  ∀ c ∈ [CodeUnit.ofChar '-',CodeUnit.ofChar '+',CodeUnit.ofChar '!'], t.head? ≠ some c

omit [Steady u] in
theorem signed_refuses (h : unsigned t) : Refuses (signed u) t :=
  Refuses.bind (refuses_orElse.mpr ⟨operator_refuses (h _ (by simp)),
    refuses_orElse.mpr ⟨operator_refuses (h _ (by simp)),operator_refuses (h _ (by simp))⟩⟩) _

end

end ConfTree.Grammar
