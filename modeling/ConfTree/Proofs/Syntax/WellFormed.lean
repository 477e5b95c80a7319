import ConfTree.Proofs.Syntax.Source

/-!
# Well-formed expressions

The trees that the grammar can write: names are no keywords, a chain of comparisons has a link, a
comprehension starts with a `for` clause that binds a name, and a set has an item that is no spread
(spreads alone make a mapping). Whatever is read is well formed, whatever the text.
-/
namespace ConfTree

open Token Grammar

/-- Whether the clauses of a comprehension start with a `for` that binds a name. -/
def startsWithFor : List Clause → Bool
  | .each targets _ :: _ => !targets.isEmpty
  | _ => false

mutual

/-- Whether the grammar can write an expression. -/
def Expr.isWellFormed : Expr → Bool
  | .literal _ => true
  | .name name => isName name
  | .list items => itemsWellFormed items
  | .set items => !items.all isSpread && itemsWellFormed items
  | .mapping entries => entriesWellFormed entries
  | .comprehension _ element clauses => element.isWellFormed && startsWithFor clauses && clausesWellFormed clauses
  | .mappingComprehension key value clauses =>
    key.isWellFormed && value.isWellFormed && startsWithFor clauses && clausesWellFormed clauses
  | .unary _ argument => argument.isWellFormed
  | .binary _ left right => left.isWellFormed && right.isWellFormed
  | .logical _ left right => left.isWellFormed && right.isWellFormed
  | .compare first rest => first.isWellFormed && !rest.isEmpty && linksWellFormed rest
  | .conditional test consequent alternate => test.isWellFormed && consequent.isWellFormed && alternate.isWellFormed
  | .call callee args => callee.isWellFormed && argumentsWellFormed args
  | .index object index => object.isWellFormed && index.isWellFormed
  | .slice object start stop step =>
    object.isWellFormed && boundWellFormed start && boundWellFormed stop && boundWellFormed step

def boundWellFormed : Option Expr → Bool
  | none => true
  | some e => e.isWellFormed

def linksWellFormed : List (CompareOp × Expr) → Bool
  | [] => true
  | (_,e) :: rest => e.isWellFormed && linksWellFormed rest

def Item.isWellFormed : Item → Bool
  | .spread e => e.isWellFormed
  | .one e => e.isWellFormed

def itemsWellFormed : List Item → Bool
  | [] => true
  | i :: rest => i.isWellFormed && itemsWellFormed rest

def Entry.isWellFormed : Entry → Bool
  | .spread e => e.isWellFormed
  | .pair key value => key.isWellFormed && value.isWellFormed

def entriesWellFormed : List Entry → Bool
  | [] => true
  | entry :: rest => entry.isWellFormed && entriesWellFormed rest

def Clause.isWellFormed : Clause → Bool
  | .each targets iterable => !targets.isEmpty && targets.all isName && iterable.isWellFormed
  | .when test => test.isWellFormed

def clausesWellFormed : List Clause → Bool
  | [] => true
  | clause :: rest => clause.isWellFormed && clausesWellFormed rest

def Argument.isWellFormed : Argument → Bool
  | .positional e => e.isWellFormed
  | .keyword name e => isName name && e.isWellFormed
  | .spread e => e.isWellFormed

def argumentsWellFormed : List Argument → Bool
  | [] => true
  | argument :: rest => argument.isWellFormed && argumentsWellFormed rest

end

attribute [local simp] Expr.isWellFormed Item.isWellFormed Entry.isWellFormed Clause.isWellFormed Argument.isWellFormed

@[simp] theorem itemsWellFormed_eq (items : List Item) : itemsWellFormed items = items.all Item.isWellFormed := by
  induction items with
  | nil => rfl
  | cons i rest ih => rw [itemsWellFormed,ih,List.all_cons]

@[simp] theorem entriesWellFormed_eq (entries : List Entry) :
    entriesWellFormed entries = entries.all Entry.isWellFormed := by
  induction entries with
  | nil => rfl
  | cons entry rest ih => rw [entriesWellFormed,ih,List.all_cons]

@[simp] theorem clausesWellFormed_eq (cs : List Clause) : clausesWellFormed cs = cs.all Clause.isWellFormed := by
  induction cs with
  | nil => rfl
  | cons c rest ih => rw [clausesWellFormed,ih,List.all_cons]

@[simp] theorem argumentsWellFormed_eq (args : List Argument) :
    argumentsWellFormed args = args.all Argument.isWellFormed := by
  induction args with
  | nil => rfl
  | cons a rest ih => rw [argumentsWellFormed,ih,List.all_cons]

@[simp] theorem linksWellFormed_eq (links : List (CompareOp × Expr)) :
    linksWellFormed links = links.all (·.2.isWellFormed) := by
  induction links with
  | nil => rfl
  | cons link rest ih => rw [linksWellFormed,ih,List.all_cons]

@[simp] theorem boundWellFormed_eq (bound : Option Expr) : boundWellFormed bound = bound.all Expr.isWellFormed := by
  cases bound <;> rfl

namespace Reader

variable {α β : Type}

/-- Whatever the reader gives is good. -/
def Yields (good : α → Bool) (r : Reader α) : Prop := ∀ ⦃t a w⦄, Reads [] r t a w → good a

theorem Yields.many {good : α → Bool} {r : Reader α} [Steady r] [Consuming r] (h : Yields good r) :
    Yields (List.all · good) (many r) := by
  intro t as w hr
  have hm := (reads_many.mp hr).1
  clear hr
  induction hm with
  | nil => rfl
  | cons h1 _ ih => simp only [List.all_cons,h h1,Bool.true_and]; exact ih

theorem Yields.maybe {good : α → Bool} {r : Reader α} (h : Yields good r) : Yields (Option.all good) (maybe r) := by
  intro t o w hr
  rcases reads_maybe.mp hr with ⟨a,rfl,h1⟩ | ⟨rfl,-⟩
  · exact h h1
  · rfl

end Reader

namespace Grammar

open Reader

set_option synthInstance.maxSize 3000

section

variable {α : Type} {good : α → Bool} {p : Reader α} [Steady p]

theorem more_yields (h : Yields good p) : Yields (List.all · good) (more p) := by
  intro t as w hr
  simp only [more,reads_bind,reads_pure] at hr
  obtain ⟨as,x,h1,_,_,-,rfl,-⟩ := hr
  have step : Yields good (do comma; p) := by
    intro t a w hr
    obtain ⟨_,_,-,h2⟩ := reads_bind.mp hr
    exact h h2
  exact step.many h1

theorem sequence_yields (h : Yields good p) : Yields (List.all · good) (sequence p) := by
  intro t as w hr
  simp only [Grammar.sequence,reads_bind,reads_pure] at hr
  obtain ⟨a,_,h1,as,_,h2,rfl,-⟩ := hr
  simp only [List.all_cons,h h1,more_yields h h2,Bool.and_self]

/-- The parts between brackets, perhaps none. -/
theorem parts_yields (h : Yields good p) {t w : List CodeUnit} {o : Option (List α)}
    (hr : Reads [] (maybe (sequence p)) t o w) : (o.getD []).all good := by
  have := (sequence_yields h).maybe hr
  cases o with
  | none => rfl
  | some as => exact this

end

section

variable {r : Rules} [Apt r] {u : Reader Expr} [Steady u]

theorem spread_yields (h : Yields Expr.isWellFormed r.expression) : Yields Expr.isWellFormed (spread r) := by
  intro t e w hr
  simp only [spread,reads_bind] at hr
  obtain ⟨_,_,-,_,_,-,h3⟩ := hr
  exact h h3

theorem item_yields (h : Yields Expr.isWellFormed r.expression) : Yields Item.isWellFormed (item r) := by
  intro t i w hr
  simp only [item,reads_orElse,reads_map] at hr
  rcases hr with ⟨e,h1,rfl⟩ | ⟨-,e,h1,rfl⟩
  · exact spread_yields h h1
  · exact h h1

theorem colonValue_yields (h : Yields Expr.isWellFormed r.expression) : Yields Expr.isWellFormed (colonValue r) := by
  intro t e w hr
  simp only [colonValue,reads_bind] at hr
  obtain ⟨_,_,-,_,_,-,_,_,-,h4⟩ := hr
  exact h h4

theorem entry_yields (h : Yields Expr.isWellFormed r.expression) : Yields Entry.isWellFormed (entry r) := by
  intro t i w hr
  simp only [entry,pair,reads_orElse,reads_map,reads_bind,reads_pure] at hr
  rcases hr with ⟨e,h1,rfl⟩ | ⟨-,key,_,h1,value,_,h2,rfl,-⟩
  · exact spread_yields h h1
  · simp [Entry.isWellFormed,h h1,colonValue_yields h h2]

/-! ## Operators -/

omit [Steady u] in
theorem operand_yields {ω : Type} {op : Reader ω} [Steady op] [Steady u] (h : Yields Expr.isWellFormed u) :
    Yields (·.2.isWellFormed) (operand op u) := by
  intro t a w hr
  simp only [operand,reads_bind,reads_pure] at hr
  obtain ⟨_,_,-,_,_,-,_,_,-,e,_,h4,rfl,-⟩ := hr
  exact h h4

theorem leftAssociative_yields {ω : Type} {op : Reader ω} [Steady op] [Consuming op] {join : ω → Expr → Expr → Expr}
    (h : Yields Expr.isWellFormed u)
    (hj : ∀ o l r, (join o l r).isWellFormed = (l.isWellFormed && r.isWellFormed)) :
    Yields Expr.isWellFormed (leftAssociative u op join) := by
  intro t a w hr
  simp only [leftAssociative_eq,reads_bind,reads_pure] at hr
  obtain ⟨head,x,h1,tail,y,h2,rfl,-⟩ := hr
  have head_good := h h1
  have tail_good := (operand_yields h).many h2
  clear h1 h2
  induction tail generalizing head with
  | nil => exact head_good
  | cons next tail ih =>
    simp only [List.all_cons,Bool.and_eq_true] at tail_good
    exact ih _ (by rw [hj,head_good,tail_good.1,Bool.and_self]) tail_good.2

theorem additive_yields (h : Yields Expr.isWellFormed u) : Yields Expr.isWellFormed (additive u) := by
  rw [additive_eq,multiplicative_eq]
  exact leftAssociative_yields (leftAssociative_yields h fun _ _ _ => by rw [Expr.isWellFormed]) fun _ _ _ => by
    rw [Expr.isWellFormed]

theorem comparison_yields (h : Yields Expr.isWellFormed u) : Yields Expr.isWellFormed (comparison u) := by
  intro t a w hr
  simp only [comparison_eq,reads_bind,reads_pure] at hr
  obtain ⟨first,x,h1,rest,y,h2,rfl,-⟩ := hr
  have first_good := additive_yields h h1
  have rest_good := (operand_yields (additive_yields h)).many h2
  split
  · exact first_good
  · next hrest => simp [Expr.isWellFormed,first_good,rest_good,hrest]

theorem logicalOr_yields (h : Yields Expr.isWellFormed u) : Yields Expr.isWellFormed (logicalOr u) := by
  rw [logicalOr_eq,logicalAnd_eq]
  exact leftAssociative_yields (leftAssociative_yields (comparison_yields h) fun _ _ _ => by rw [Expr.isWellFormed])
    fun _ _ _ => by rw [Expr.isWellFormed]

theorem conditional_yields (h : Yields Expr.isWellFormed r.expression) (hu : Yields Expr.isWellFormed u) :
    Yields Expr.isWellFormed (conditional r u) := by
  intro t e w hr
  simp only [conditional,reads_bind,reads_orElse,reads_pure] at hr
  obtain ⟨test,x,h1,⟨_,_,-,_,_,-,_,_,-,consequent,_,h2,alternate,_,h3,rfl,-⟩ | ⟨-,rfl,-⟩⟩ := hr
  · simp [Expr.isWellFormed,logicalOr_yields hu h1,h h2,colonValue_yields h h3]
  · exact logicalOr_yields hu h1

/-! ## Comprehensions and displays -/

theorem names_yields : Yields (fun ns => !ns.isEmpty && ns.all Token.isName) names := by
  have one : Yields Token.isName Token.identifier := fun t name w hr => (reads_identifier.mp hr).2.1
  intro t ns w hr
  simp only [names,reads_bind,reads_pure] at hr
  obtain ⟨head,_,h1,rest,_,h2,rfl,-⟩ := hr
  have step : Yields Token.isName (do comma; Token.identifier) := by
    intro t a w hr
    obtain ⟨_,_,-,h2⟩ := reads_bind.mp hr
    exact one h2
  simp only [List.isEmpty_cons,Bool.not_false,Bool.true_and,List.all_cons,one h1,step.many h2]

theorem targets_yields : Yields (fun ns => !ns.isEmpty && ns.all Token.isName) targets := by
  intro t ns w hr
  simp only [targets_eq,reads_orElse,reads_bind,reads_pure] at hr
  rcases hr with ⟨_,_,-,_,_,-,all,_,h3,_,_,-,rfl,-⟩ | ⟨-,h1⟩
  · exact names_yields h3
  · exact names_yields h1

theorem eachClause_yields (h : Yields Expr.isWellFormed u) :
    Yields (fun c => startsWithFor [c] && c.isWellFormed) (eachClause u) := by
  intro t c w hr
  simp only [eachClause,reads_bind,reads_pure] at hr
  obtain ⟨_,_,-,_,_,-,all,_,h3,_,_,-,_,_,-,_,_,-,e,_,h7,rfl,-⟩ := hr
  have names := targets_yields h3
  have iterable := logicalOr_yields h h7
  simp only [Bool.and_eq_true] at names
  simp only [startsWithFor,Clause.isWellFormed,names,iterable,Bool.and_self]

theorem clauses_yields (h : Yields Expr.isWellFormed u) :
    Yields (fun cs => startsWithFor cs && cs.all Clause.isWellFormed) (clauses u) := by
  have step : Yields Clause.isWellFormed (clause u) := by
    intro t c w hr
    simp only [clause,Token.afterBlanks,reads_bind,reads_orElse] at hr
    obtain ⟨_,_,-,h1 | ⟨-,h1⟩⟩ := hr
    · exact (Bool.and_eq_true _ _ ▸ eachClause_yields h h1).2
    · simp only [whenClause,reads_bind,reads_pure] at h1
      obtain ⟨_,_,-,_,_,-,e,_,h3,rfl,-⟩ := h1
      exact logicalOr_yields h h3
  intro t cs w hr
  simp only [clauses_eq,reads_bind,reads_pure] at hr
  obtain ⟨_,_,-,c,_,h2,cs,_,h3,rfl,-⟩ := hr
  have head := eachClause_yields h h2
  simp only [Bool.and_eq_true] at head
  have start : startsWithFor (c :: cs) = startsWithFor [c] := by cases c <;> rfl
  simp only [start,List.all_cons,head.1,head.2,step.many h3,Bool.and_self]

/-- What `clauses_yields` says of the clauses, in the form that comprehensions ask for. -/
theorem clauses_good (hu : Yields Expr.isWellFormed u) {t w : List CodeUnit} {cs : List Clause}
    (h : Reads [] (clauses u) t cs w) : startsWithFor cs = true ∧ clausesWellFormed cs = true := by
  have := clauses_yields hu h
  simpa only [clausesWellFormed_eq,Bool.and_eq_true] using this

theorem listDisplay_yields (h : Yields Expr.isWellFormed r.expression) (hu : Yields Expr.isWellFormed u) :
    Yields Expr.isWellFormed (listDisplay r u) := by
  intro t e w hr
  simp only [listDisplay,reads_bind,reads_maybe_bind,reads_orElse,reads_pure] at hr
  obtain ⟨_,_,-,_,_,-,⟨e,_,h3,⟨cs,_,h4,_,_,-,rfl,-⟩ | ⟨-,items,_,h4,_,_,-,rfl,-⟩⟩ |
    ⟨-,o,_,h4,_,_,-,rfl,-⟩⟩ := hr
  · simp only [Expr.isWellFormed,h h3,clauses_good hu h4,Bool.and_self]
  · simp only [Expr.isWellFormed,itemsWellFormed_eq,List.all_cons,Item.isWellFormed,h h3,
      more_yields (item_yields h) h4,Bool.and_self]
  · simp only [Expr.isWellFormed,itemsWellFormed_eq,parts_yields (item_yields h) h4]

theorem braceDisplayFrom_yields (h : Yields Expr.isWellFormed r.expression) (hu : Yields Expr.isWellFormed u)
    {first : Expr} (hf : first.isWellFormed) : Yields Expr.isWellFormed (braceDisplayFrom r u first) := by
  intro t e w hr
  simp only [braceDisplayFrom,reads_bind,reads_maybe_bind,reads_orElse,reads_pure] at hr
  obtain ⟨value,_,h1,⟨cs,_,h2,_,_,-,rfl,-⟩ | ⟨-,entries,_,h2,_,_,-,rfl,-⟩⟩ |
    ⟨-,⟨cs,_,h2,_,_,-,rfl,-⟩ | ⟨-,items,_,h2,_,_,-,rfl,-⟩⟩ := hr
  · simp only [Expr.isWellFormed,hf,colonValue_yields h h1,clauses_good hu h2,Bool.and_self]
  · simp only [Expr.isWellFormed,entriesWellFormed_eq,List.all_cons,Entry.isWellFormed,hf,colonValue_yields h h1,
      more_yields (entry_yields h) h2,Bool.and_self]
  · simp only [Expr.isWellFormed,hf,clauses_good hu h2,Bool.and_self]
  · simp only [Expr.isWellFormed,itemsWellFormed_eq,List.all_cons,Item.isWellFormed,isSpread,hf,
      more_yields (item_yields h) h2,Bool.false_and,Bool.not_false,Bool.and_self]

/-- What starts with a spread makes a set only with an item that is none. -/
theorem braceDisplayFromSpread_yields (h : Yields Expr.isWellFormed r.expression) {t w : List CodeUnit} {e : Expr}
    (no : Reader.Refuses r.expression t) (hr : Reads [] (braceDisplayFromSpread r) t e w) : e.isWellFormed := by
  simp only [braceDisplayFromSpread_eq,spreadMapping,reads_orElse,reads_bind,reads_pure] at hr
  rcases hr with ⟨entries,_,h1,_,_,-,rfl,-⟩ | ⟨refuses,items,_,h1,_,_,h2,rfl,-⟩
  · simp only [Expr.isWellFormed,entriesWellFormed_eq,sequence_yields (entry_yields h) h1]
  · rw [List.append_nil] at refuses
    have mixed := (spreadMapping_refuses_iff no (reads_nil.mp h1) (reads_nil.mp h2)).2.mp refuses
    simp only [Expr.isWellFormed,itemsWellFormed_eq,mixed,sequence_yields (item_yields h) h1,Bool.not_false,
      Bool.and_self]

theorem braceDisplay_yields (h : Yields Expr.isWellFormed r.expression) (hu : Yields Expr.isWellFormed u) :
    Yields Expr.isWellFormed (braceDisplay r u) := by
  intro t e w hr
  simp only [braceDisplay,reads_bind,reads_maybe_bind,reads_orElse,reads_pure] at hr
  obtain ⟨_,_,-,_,_,-,⟨_,_,-,rfl,-⟩ | ⟨-,⟨first,_,h3,h4⟩ | ⟨no,h4⟩⟩⟩ := hr
  · rfl
  · exact braceDisplayFrom_yields h hu (h h3) h4
  · rw [List.append_nil] at no
    exact braceDisplayFromSpread_yields h no h4

theorem parenthesized_yields (h : Yields Expr.isWellFormed r.expression) :
    Yields Expr.isWellFormed (parenthesized r) := by
  intro t e w hr
  simp only [parenthesized_eq,reads_bind,reads_orElse,reads_pure] at hr
  obtain ⟨_,_,-,_,_,-,⟨_,_,-,rfl,-⟩ | ⟨-,head,_,h3,⟨_,_,-,o,_,h5,_,_,-,rfl,-⟩ | ⟨-,h4⟩⟩⟩ := hr
  · rfl
  · simp only [Expr.isWellFormed,itemsWellFormed_eq,List.all_cons,item_yields h h3,parts_yields (item_yields h) h5,
      Bool.and_self]
  · cases head with
    | spread e => exact (reads_giveUp h4).elim
    | one e =>
      simp only [single,reads_bind,reads_pure] at h4
      obtain ⟨_,_,-,rfl,-⟩ := h4
      exact item_yields h h3

/-! ## Primaries and what follows them -/

theorem constant_yields : Yields Expr.isWellFormed constant := by
  intro t e w hr
  simp only [constant,reads_orElse,reads_bind,reads_pure] at hr
  rcases hr with ⟨_,_,-,rfl,-⟩ | ⟨-,⟨_,_,-,rfl,-⟩ | ⟨-,_,_,-,rfl,-⟩⟩ <;> rfl

theorem primary_yields (h : Yields Expr.isWellFormed r.expression) (hu : Yields Expr.isWellFormed u) :
    Yields Expr.isWellFormed (primary r u) := by
  intro t e w hr
  simp only [primary,reads_orElse,reads_map] at hr
  rcases hr with ⟨n,-,rfl⟩ | ⟨-,⟨s,-,rfl⟩ | ⟨-,h1 | ⟨-,⟨name,h1,rfl⟩ | ⟨-,h1 | ⟨-,h1 | ⟨-,h1⟩⟩⟩⟩⟩⟩
  · rfl
  · rfl
  · exact constant_yields h1
  · exact (reads_identifier.mp h1).2.1
  · exact listDisplay_yields h hu h1
  · exact braceDisplay_yields h hu h1
  · exact parenthesized_yields h h1

theorem argument_yields (h : Yields Expr.isWellFormed r.expression) : Yields Argument.isWellFormed (argument r) := by
  intro t a w hr
  simp only [argument_eq,keyword,reads_orElse,reads_map,reads_bind,reads_pure] at hr
  rcases hr with ⟨e,h1,rfl⟩ | ⟨-,⟨name,_,h1,_,_,-,_,_,-,_,_,-,e,_,h2,rfl,-⟩ | ⟨-,e,h1,rfl⟩⟩
  · exact spread_yields h h1
  · simp only [Argument.isWellFormed,(reads_identifier.mp h1).2.1,h h2,Bool.and_self]
  · exact h h1

theorem callSuffix_yields (h : Yields Expr.isWellFormed r.expression) {t w : List CodeUnit} {s : Suffix}
    (hr : Reads [] (callSuffix r) t s w) : ∃ args, s = .call args ∧ args.all Argument.isWellFormed := by
  simp only [callSuffix,reads_bind,reads_pure] at hr
  obtain ⟨_,_,-,_,_,-,o,_,h3,_,_,-,rfl,-⟩ := hr
  exact ⟨_,rfl,parts_yields (argument_yields h) h3⟩

theorem sliceStep_yields (h : Yields Expr.isWellFormed r.expression) :
    Yields (Option.all Expr.isWellFormed) (sliceStep r) := by
  intro t o w hr
  simp only [sliceStep,reads_bind,reads_pure] at hr
  obtain ⟨_,_,-,_,_,-,o,_,h3,_,_,-,rfl,-⟩ := hr
  exact h.maybe h3

theorem bracketSuffix_yields (h : Yields Expr.isWellFormed r.expression) {t w : List CodeUnit} {s : Suffix}
    (hr : Reads [] (bracketSuffix r) t s w) : (∃ i, s = .index i ∧ i.isWellFormed) ∨
      ∃ start stop step, s = .slice start stop step ∧
        (start.all Expr.isWellFormed ∧ stop.all Expr.isWellFormed ∧ step.all Expr.isWellFormed) := by
  simp only [bracketSuffix_eq,reads_bind,reads_orElse,reads_pure] at hr
  obtain ⟨_,_,-,_,_,-,first,_,h3,⟨_,_,-,_,_,-,_,_,-,stop,_,h7,_,_,-,step,_,h9,_,_,-,rfl,-⟩ |
    ⟨-,hr⟩⟩ := hr
  · have last : step.join.all Expr.isWellFormed := by
      have := (sliceStep_yields h).maybe h9
      cases step <;> exact this
    exact .inr ⟨_,_,_,rfl,h.maybe h3,h.maybe h7,last⟩
  · cases first with
    | none => exact (reads_giveUp hr).elim
    | some i =>
      simp only [closeIndex,reads_bind,reads_pure] at hr
      obtain ⟨_,_,-,rfl,-⟩ := hr
      exact .inl ⟨i,rfl,h.maybe h3⟩

/-- What a suffix makes of a well-formed object is well formed. -/
theorem attach_yields (h : Yields Expr.isWellFormed r.expression) {t w : List CodeUnit} {s : Suffix}
    (hr : Reads [] (suffix r) t s w) {e : Expr} (he : e.isWellFormed) : (s.attach e).isWellFormed := by
  simp only [suffix,Token.afterBlanks,reads_bind,reads_orElse] at hr
  obtain ⟨_,_,-,h1 | ⟨-,h1⟩⟩ := hr
  · obtain ⟨args,rfl,good⟩ := callSuffix_yields h h1
    simp only [Suffix.attach,Expr.isWellFormed,he,argumentsWellFormed_eq,good,Bool.and_self]
  · rcases bracketSuffix_yields h h1 with ⟨i,rfl,good⟩ | ⟨start,stop,step,rfl,good⟩
    · simp only [Suffix.attach,Expr.isWellFormed,he,good,Bool.and_self]
    · simp only [Suffix.attach,Expr.isWellFormed,he,boundWellFormed_eq,good,Bool.and_self]

theorem suffixed_yields (h : Yields Expr.isWellFormed r.expression) (hu : Yields Expr.isWellFormed u) :
    Yields Expr.isWellFormed (suffixed r u) := by
  intro t e w hr
  simp only [suffixed_eq,reads_bind,reads_pure] at hr
  obtain ⟨head,x,h1,suffixes,y,h2,rfl,-⟩ := hr
  have run := (reads_many.mp h2).1
  have good := primary_yields h hu h1
  clear h1 h2
  induction run generalizing head with
  | nil => exact good
  | cons h1 _ ih => exact ih _ (attach_yields h h1 good)

theorem power_yields [Steady r.unary] (h : Yields Expr.isWellFormed r.expression)
    (hu : Yields Expr.isWellFormed r.unary) : Yields Expr.isWellFormed (power r r.unary) := by
  intro t e w hr
  simp only [power,reads_bind,reads_orElse,reads_pure] at hr
  obtain ⟨base,_,h1,⟨_,_,-,_,_,-,_,_,-,e,_,h2,rfl,-⟩ | ⟨-,rfl,-⟩⟩ := hr
  · simp only [Expr.isWellFormed,suffixed_yields h hu h1,hu h2,Bool.and_self]
  · exact suffixed_yields h hu h1

theorem signed_yields (h : Yields Expr.isWellFormed u) : Yields Expr.isWellFormed (signed u) := by
  intro t e w hr
  simp only [signed,reads_bind,reads_pure] at hr
  obtain ⟨op,_,-,_,_,-,e,_,h3,rfl,-⟩ := hr
  simp only [Expr.isWellFormed,h h3]

end

theorem rules_yield (n : Nat) :
    Yields Expr.isWellFormed (rules n).expression ∧ Yields Expr.isWellFormed (rules n).unary := by
  induction n with
  | zero => exact ⟨fun _ _ _ h => (reads_giveUp h).elim,fun _ _ _ h => (reads_giveUp h).elim⟩
  | succ n ih =>
    obtain ⟨expression,unary⟩ := ih
    have : Yields Expr.isWellFormed (rules (n + 1)).unary := by
      intro t e w hr
      rcases reads_orElse.mp hr with h1 | ⟨-,h1⟩
      · exact signed_yields unary h1
      · exact power_yields expression unary h1
    exact ⟨conditional_yields expression this,this⟩

theorem isWellFormed_of_parseExpression {t : Text} {e : Expr} (h : parseExpression t = .ok e) : e.isWellFormed := by
  simp only [parseExpression,runAll_eq_ok,← reads_nil,reads_bind,reads_pure] at h
  obtain ⟨_,_,-,e,_,h1,_,_,-,rfl,-⟩ := h
  exact (rules_yield _).1 h1

end Grammar

end ConfTree
