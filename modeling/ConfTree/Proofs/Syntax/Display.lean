import ConfTree.Configuration
import ConfTree.Proofs.Overrides.Edit
import ConfTree.Proofs.Pairs
import ConfTree.Proofs.Runs
import ConfTree.Proofs.Syntax.Reparse
import ConfTree.Proofs.WholeNumbers
import ConfTree.Tree.Resolve

/-!
# Displays read back

The display of a value made of scalars, lists and mappings is the source of an expression, and that expression gives a value of
the same content (`Displays`). Each form of value is read by the alternative of a primary that its first unit leads to, a
negative integer by the sign above; what stands behind a part, a comma, a colon or a closing bracket, goes on none of the rules
in between. The main result is `evaluate_display`.
-/
namespace ConfTree

open Reader Token Grammar

set_option synthInstance.maxSize 3000

/-- No backspace and no form feed: their escapes are read as letters. -/
def Text.isRestorable (t : Text) : Bool := t.units.all fun u => u != 0x08 && u != 0x0C

/-- What its display restores: null, a boolean, an integer below `2 ^ 53` in magnitude, a text that holds neither a backspace
nor a form feed, and lists and mappings of such, the pairs of a mapping in the order in which a mapping keeps them. -/
inductive Value.Restorable : Value → Prop where
  | null : Restorable .null
  | bool (b : Bool) : Restorable (.bool b)
  | integer {i : Int} (small : i.natAbs < 2 ^ 53) : Restorable (.ofInt i)
  | text {t : Text} (plain : t.isRestorable) : Restorable (.text t)
  | list {id : Identity} {items : List Value} (each : ∀ v ∈ items, Restorable v) : Restorable (.list id items)
  | mapping {id : Identity} {pairs : Pairs} (kept : Pairs.ofList pairs = pairs) (keys : ∀ p ∈ pairs, p.1.isRestorable)
      (each : ∀ p ∈ pairs, Restorable p.2) : Restorable (.mapping id pairs)

variable {w x : List CodeUnit} {n : Nat} {t : Text}

namespace Token

variable {u : CodeUnit} {us : List CodeUnit}

theorem outcome_plainUnit (quote : u ≠ CodeUnit.ofChar '"') (backslash : u ≠ CodeUnit.ofChar '\\') (feed : u ≠ CodeUnit.ofChar '\n')
    (return_ : u ≠ CodeUnit.ofChar '\r') : outcome (quotedUnit '"') (u :: w) = some (u,w) := by
  simp [quotedUnit,outcome_orElse,outcome_unitOf,quote,backslash,feed,return_]

/-- The escape of a unit reads as the unit. -/
theorem outcome_escapeUnit (backspace : u ≠ 0x08) (form : u ≠ 0x0C) :
    outcome (quotedUnit '"') (Text.Quote.escapeUnit u ++ w) = some (u,w) := by
  simp only [Text.Quote.escapeUnit,beq_iff_eq,if_neg backspace,if_neg form]
  split
  · next quote => subst quote; rfl
  split
  · next backslash => subst backslash; rfl
  split
  · next feed => subst feed; rfl
  split
  · next return_ => subst return_; rfl
  split
  · next tab => subst tab; rfl
  split
  · exact outcome_quotedUnit u
  · exact outcome_plainUnit ‹_› ‹_› ‹_› ‹_›

theorem outcome_surrogate (surrogate : u.isHigh ∨ u.isLow) : outcome (quotedUnit '"') (u :: w) = some (u,w) := by
  apply outcome_plainUnit
  all_goals
    rintro rfl
    revert surrogate
    decide

theorem many_escapePoint (plain : ∀ u ∈ us, u ≠ 0x08 ∧ u ≠ 0x0C) :
    Many (fun t a w => outcome (quotedUnit '"') t = some (a,w)) ((Text.codePointsOf us).flatMap Text.Quote.escapePoint ++ w) us w := by
  fun_induction Text.codePointsOf us with
  | case1 => exact .nil w
  | case2 u =>
    obtain ⟨backspace,form⟩ := plain u List.mem_cons_self
    rw [List.flatMap_singleton]
    exact .cons (outcome_escapeUnit backspace form) (.nil w)
  | case3 u v rest pair ih =>
    rw [Bool.and_eq_true] at pair
    rw [List.flatMap_cons,List.append_assoc]
    refine .cons (outcome_surrogate (.inl pair.1)) (.cons (outcome_surrogate (.inr pair.2)) (ih fun c hc => plain c ?_))
    exact List.mem_cons_of_mem u (List.mem_cons_of_mem v hc)
  | case4 u v rest apart ih =>
    obtain ⟨backspace,form⟩ := plain u List.mem_cons_self
    rw [List.flatMap_cons,List.append_assoc]
    exact .cons (outcome_escapeUnit backspace form) (ih fun c hc => plain c (List.mem_cons_of_mem u hc))

theorem outcome_escaped (plain : t.isRestorable) (w : List CodeUnit) : outcome quoted (t.escaped.units ++ w) = some (t,w) := by
  have units : ∀ u ∈ t.units, u ≠ 0x08 ∧ u ≠ 0x0C := by simpa [Text.isRestorable] using plain
  have all := many_escapePoint (w := CodeUnit.ofChar '"' :: w) units
  have stop : Reader.Refuses (quotedUnit '"') (CodeUnit.ofChar '"' :: w) := rfl
  have text : t.escaped.units ++ w = CodeUnit.ofChar '"' ::
      ((Text.codePointsOf t.units).flatMap Text.Quote.escapePoint ++ CodeUnit.ofChar '"' :: w) := by
    simp only [Text.escaped,List.cons_append,List.append_assoc,List.nil_append]
    rfl
  rw [text]
  simp [quoted,quotedBy,outcome_orElse,outcome_bind,outcome_map,outcome_unit_self,outcome_many.mpr ⟨all,stop⟩]

end Token

/-- A comma, a colon or a bracket that closes a display. -/
def partMarks : List CodeUnit := [CodeUnit.ofChar ',',CodeUnit.ofChar ':',CodeUnit.ofChar ']',CodeUnit.ofChar '}']

/-- Nothing follows, or one of these marks. -/
def Parted (w : List CodeUnit) : Prop := w = [] ∨ ∃ u ∈ partMarks, ∃ x, w = u :: x

namespace Parted

theorem cons {u : CodeUnit} (mark : u ∈ partMarks) : Parted (u :: w) := .inr ⟨u,mark,w,rfl⟩

theorem of_follows (follows : Follows w x) (parted : Parted w) : Parted x := by
  rcases follows with rfl | comma
  · exact parted
  · obtain ⟨y,rfl⟩ := List.head?_eq_some_iff.mp comma
    exact cons List.mem_cons_self

theorem ends (parted : Parted w) : Grammar.Ends 7 w := by
  rcases parted with rfl | ⟨u,mark,x,rfl⟩
  · exact Nat.lt_succ_self 7
  · simp only [partMarks,List.mem_cons,List.not_mem_nil,or_false] at mark
    rcases mark with rfl | rfl | rfl | rfl <;> exact Nat.lt_succ_self 7

theorem name (parted : Parted w) : ¬ w.head?.any CodeUnit.inName := by
  rcases parted with rfl | ⟨u,mark,x,rfl⟩
  · exact Bool.false_ne_true
  · have marks : partMarks.all (fun u => !u.inName) := rfl
    simpa using List.all_eq_true.mp marks u mark

theorem point (parted : Parted w) : w.head? ≠ some (CodeUnit.ofChar '.') := by
  rcases parted with rfl | ⟨u,mark,x,rfl⟩
  · exact nofun
  · have marks : partMarks.all (fun u => u != CodeUnit.ofChar '.') := rfl
    exact head?_ne (bne_iff_ne.mp (List.all_eq_true.mp marks u mark))

end Parted
/-! ## Values and their sources -/

/-- The text is the display of the value, and it is read, before such a mark, as an expression that gives a value of the same
content wherever it is evaluated. -/
structure Displays (v : Value) (t : Text) (e : Expr) : Prop where
  shown : ∀ s, Runs (StoreM.display v) s (.ok t) s
  reads : ∀ n w, t.length < n → Parted w → outcome (rules n).expression (t.units ++ w) = some (e,w)
  gives : ∀ env frame s, ∃ w s', Runs (Eval.eval env frame e) s (.ok w) s' ∧ w.bare = v.bare

variable {e : Expr}

/-- A primary is all that is read before such a mark. -/
theorem expression_of_primary (parted : Parted w) (enough : t.length < n)
    (read : ∀ m, t.length ≤ m → outcome (primary (rules m) (rules m).unary) (t.units ++ w) = some (e,w)) :
    outcome (rules n).expression (t.units ++ w) = some (e,w) := by
  obtain ⟨m,rfl⟩ : ∃ m, n = m + 1 := ⟨n - 1,by omega⟩
  exact expression_of_unary (unary_alone (read m (by omega)) (parted.ends.mono (by decide))) parted.ends

theorem Displays.skip_eq {v : Value} (displays : Displays v t e) (parted : Parted w) : skip (t.units ++ w) = t.units ++ w :=
  skip_of_opens (opens_of_outcome (displays.reads _ w (Nat.lt_succ_self _) parted))

theorem displays_null : Displays .null "null" (.literal .null) where
  shown _ := Runs.ok _ _
  reads _ _ enough parted := expression_of_primary parted enough fun _ _ => by
    refine outcome_primary_constant _ _ ?_
    rcases parted with rfl | ⟨u,mark,x,rfl⟩
    · rfl
    · simp only [partMarks,List.mem_cons,List.not_mem_nil,or_false] at mark
      rcases mark with rfl | rfl | rfl | rfl <;> rfl
  gives _ _ s := ⟨_,s,Runs.ok _ _,rfl⟩

theorem displays_bool (b : Bool) : Displays (.bool b) (Value.boolText b) (.literal (.bool b)) where
  shown _ := Runs.ok _ _
  reads _ _ enough parted := expression_of_primary parted enough fun _ _ => by
    refine outcome_primary_constant _ _ ?_
    rcases parted with rfl | ⟨u,mark,x,rfl⟩
    · cases b <;> rfl
    · simp only [partMarks,List.mem_cons,List.not_mem_nil,or_false] at mark
      cases b <;> rcases mark with rfl | rfl | rfl | rfl <;> rfl
  gives _ _ s := ⟨_,s,Runs.ok _ _,rfl⟩

theorem displays_text (plain : t.isRestorable) : Displays (.text t) t.escaped (.literal (.text t)) where
  shown _ := Runs.ok _ _
  reads _ w enough parted := expression_of_primary parted enough fun _ _ => outcome_primary_quoted _ _ (outcome_escaped plain w)
  gives _ _ s := ⟨_,s,Runs.ok _ _,rfl⟩

section Integers

variable {k : Nat}

theorem displays_ofNat (small : k < 2 ^ 53) : Displays (.ofInt k) (Text.ofNat k) (.literal (.number (.ofNat k))) where
  shown s := Number.text_ofNat small ▸ Runs.ok _ s
  reads _ _ enough parted := expression_of_primary parted enough fun _ _ =>
    outcome_primary_number _ _ (outcome_number k parted.name parted.point)
  gives _ _ s := ⟨_,s,Runs.ok _ _,rfl⟩

/-- A negative integer is the integer above zero behind a sign. -/
theorem displays_neg (positive : 0 < k) (small : k < 2 ^ 53) :
    Displays (.ofInt (-k)) ⟨CodeUnit.ofChar '-' :: (Text.ofNat k).units⟩ (.unary .minus (.literal (.number (.ofNat k)))) where
  shown s := Number.text_neg_ofNat positive small ▸ Runs.ok _ s
  reads n w enough parted := by
    have digits : 0 < (Text.ofNat k).units.length := List.length_pos_iff.mpr (Text.ofNat_units_ne_nil k)
    have length : (Text.ofNat k).units.length + 1 < n := enough
    obtain ⟨m,rfl⟩ : ∃ m, n = m + 2 := ⟨n - 2,by omega⟩
    have magnitude : outcome (rules (m + 1)).unary ((Text.ofNat k).units ++ w) = some (.literal (.number (.ofNat k)),w) :=
      unary_of_primary (outcome_primary_number _ _ (outcome_number k parted.name parted.point)) (parted.ends.mono (by decide))
    have blanks : skip ((Text.ofNat k).units ++ w) = (Text.ofNat k).units ++ w :=
      skip_of_opens (opens_of_outcome (expression_of_unary magnitude parted.ends))
    have sign (y : List CodeUnit) : outcome
        (orElse (operator UnaryOp.minus '-' none) (orElse (operator .plus '+' none) (operator .not '!' (some '='))))
        (CodeUnit.ofChar '-' :: y) = some (.minus,y) := by cases y <;> rfl
    refine expression_of_unary (n := m + 2) ?_ parted.ends
    show outcome (orElse _ _) _ = _
    simp [outcome_orElse,signed,outcome_bind,outcome_map,sign,outcome_blanks,blanks,magnitude]
  gives _ _ s := by
    refine ⟨_,s,(Runs.ok _ s).bind (StoreM.check_run (v := .number (-Number.ofNat k)) rfl),?_⟩
    rw [Number.neg_ofNat positive small]
    rfl

end Integers

/-- A part after a comma. -/
def spaced (t : Text) : List CodeUnit := CodeUnit.ofChar ' ' :: t.units

section Parts

variable {ι : Type} {text : ι → Text}

theorem units_join_comma (first : ι) (rest : List ι) :
    (Text.join ", " ((first :: rest).map text)).units = listed ((text first).units :: rest.map fun i => spaced (text i)) := by
  rw [List.map_cons,Text.units_join_cons,listed,List.flatMap_map,List.flatMap_map]
  rfl

theorem join_append (first : ι) (rest : List ι) (w : List CodeUnit) : (Text.join ", " ((first :: rest).map text)).units ++ w =
    (text first).units ++ following (fun i => spaced (text i)) rest w := by
  rw [units_join_comma]
  exact List.append_assoc ..

theorem bracketed_append (opening closing : CodeUnit) (parts : List Text) (w : List CodeUnit) :
    (Value.bracketed ⟨[opening]⟩ ⟨[closing]⟩ parts).units ++ w = opening :: ((Text.join ", " parts).units ++ closing :: w) := by
  simp [Value.bracketed,Text.concat]

/-- A part is shorter than the whole between brackets. -/
theorem length_lt_bracketed (text : ι → Text) {is : List ι} {i : ι} (member : i ∈ is) (opening closing : CodeUnit) :
    (text i).length + 1 < (Value.bracketed ⟨[opening]⟩ ⟨[closing]⟩ (is.map text)).length := by
  have whole := congrArg List.length (bracketed_append opening closing (is.map text) [])
  rw [List.append_nil,List.length_cons,List.length_append,List.length_singleton] at whole
  show (text i).units.length + 1 < (Value.bracketed ⟨[opening]⟩ ⟨[closing]⟩ (is.map text)).units.length
  cases is with
  | nil => cases member
  | cons first rest =>
    rw [units_join_comma] at whole
    rcases List.mem_cons.mp member with rfl | later
    · have part : (text i).units.length ≤ (listed ((text i).units :: rest.map fun i => spaced (text i))).length :=
        length_le_listed List.mem_cons_self
      omega
    · have part := length_le_listed (List.mem_cons_of_mem (text first).units (List.mem_map_of_mem (f := fun i => spaced (text i)) later))
      rw [spaced,List.length_cons] at part
      omega

end Parts

/-! ## Lists and mappings -/

section Lists

variable {items : List Value} {text : Value → Text} {source : Value → Expr} (displays : ∀ v ∈ items, Displays v (text v) (source v))

include displays

theorem shown_items (s : Store) : Runs (Value.displayItems StoreM.objectText items) s (.ok (items.map text)) s := by
  induction items with
  | nil => exact Runs.ok _ _
  | cons v rest ih =>
    obtain ⟨first,later⟩ := List.forall_mem_cons.mp displays
    exact (first.shown s).bind ((ih later).bind (Runs.ok _ _))

theorem gives_items (env : Env) (frame : Frame) (s : Store) :
    ∃ ws s', Runs (Eval.evalItems env frame (items.map fun v => .one (source v))) s (.ok ws) s' ∧
      Value.bareAll ws = Value.bareAll items := by
  induction items generalizing s with
  | nil => exact ⟨[],s,Runs.ok _ _,rfl⟩
  | cons v rest ih =>
    obtain ⟨first,later⟩ := List.forall_mem_cons.mp displays
    obtain ⟨w,t,here,same⟩ := first.gives env frame s
    obtain ⟨ws,u,there,sames⟩ := ih later t
    exact ⟨w :: ws,u,here.bind (there.bind (Runs.ok _ _)),by rw [Value.bareAll,Value.bareAll,same,sames]⟩

/-- Items before the bracket that closes the list. -/
theorem reads_items {w : List CodeUnit} (closes : Closes w) (parted : Parted w) (short : ∀ v ∈ items, (text v).length < n) :
    outcome (more (item (rules n))) (following (fun v => spaced (text v)) items w) = some (items.map fun v => .one (source v),w) := by
  refine more_following (fun v member x follows => ?_) closes
  have parted' := Parted.of_follows follows parted
  have blanks : skip (spaced (text v) ++ x) = skip ((text v).units ++ x) := rfl
  rw [blanks,(displays v member).skip_eq parted']
  exact outcome_item ((displays v member).reads n x (short v member) parted')

theorem displays_list (id : Identity) :
    Displays (.list id items) (Value.bracketed "[" "]" (items.map text)) (.list (items.map fun v => .one (source v))) where
  shown s := (shown_items displays s).bind (Runs.ok _ _)
  reads n w enough parted := by
    refine expression_of_primary parted enough fun m length => ?_
    have units := bracketed_append (CodeUnit.ofChar '[') (CodeUnit.ofChar ']') (items.map text) w
    have short (v) (member : v ∈ items) : (text v).length < m := by
      have part := length_lt_bracketed text member (CodeUnit.ofChar '[') (CodeUnit.ofChar ']')
      have fits : (Value.bracketed ⟨[CodeUnit.ofChar '[']⟩ ⟨[CodeUnit.ofChar ']']⟩ (items.map text)).length ≤ m := length
      omega
    obtain ⟨closes,blanks⟩ := closes_cons (c := CodeUnit.ofChar ']') (by simp) w
    have close := outcome_close (w := w) (c := CodeUnit.ofChar ']') rfl
    refine (congrArg (outcome _) units).trans (outcome_primary_list _ _ ?_)
    cases items with
    | nil =>
      have expression : outcome (rules m).expression (CodeUnit.ofChar ']' :: w) = none := Apt.expression_refuses rfl
      have items : outcome (sequence (item (rules m))) (CodeUnit.ofChar ']' :: w) = none :=
        Reader.Refuses.bind (blanks ▸ items_refuse closes) _
      show outcome (listDisplay _ _) (CodeUnit.ofChar '[' :: CodeUnit.ofChar ']' :: w) = _
      simp [listDisplay,outcome_bind,outcome_maybe_bind,outcome_map,outcome_unit_self,outcome_blanks,blanks,expression,
        outcome_maybe,items,close]
    | cons v rest =>
      obtain ⟨first,later⟩ := List.forall_mem_cons.mp displays
      have stops := following_stops (fun v => spaced (text v)) rest closes
      have behind : Parted (following (fun v => spaced (text v)) rest (CodeUnit.ofChar ']' :: w)) :=
        Parted.of_follows (follows_following _ _ _) (.cons (by decide))
      have head := first.reads m _ (short v List.mem_cons_self) behind
      have clauses : outcome (clauses (rules m).unary) _ = none := stops.clauses_refuses
      have tail := reads_items later closes (.cons (by decide)) fun v member => short v (List.mem_cons_of_mem _ member)
      rw [join_append]
      simp only [listDisplay,outcome_bind,outcome_maybe_bind,outcome_unit_self,Option.bind_some,outcome_blanks,
        first.skip_eq behind,head,outcome_orElse,clauses,Option.bind_none,Option.none_or,tail,close,outcome_pure,List.map_cons]
  gives env frame s := by
    obtain ⟨ws,t,run,same⟩ := gives_items displays env frame s
    exact ⟨.list t.nextIdentity ws,t.issued 1,run.bind StoreM.compute_list_run,by rw [Value.bare,Value.bare,same]⟩

end Lists

section Mappings

/-- A key and the display of its value. -/
def pairText (text : Text × Value → Text) (p : Text × Value) : Text := .concat [p.1.escaped,": ",text p]

variable {pairs : Pairs} {text : Text × Value → Text} {source : Text × Value → Expr}
  (displays : ∀ p ∈ pairs, Displays p.2 (text p) (source p))

theorem pairText_append (text : Text × Value → Text) (p : Text × Value) (x : List CodeUnit) : (pairText text p).units ++ x =
    p.1.escaped.units ++ CodeUnit.ofChar ':' :: CodeUnit.ofChar ' ' :: ((text p).units ++ x) := by
  simp only [pairText,Text.concat,List.flatMap_cons,List.flatMap_nil,List.append_assoc,List.append_nil]
  rfl

include displays

theorem shown_pairs (s : Store) : Runs (Value.displayPairs StoreM.objectText pairs) s (.ok (pairs.map (pairText text))) s := by
  induction pairs with
  | nil => exact Runs.ok _ _
  | cons p rest ih =>
    obtain ⟨first,later⟩ := List.forall_mem_cons.mp displays
    exact (first.shown s).bind ((ih later).bind (Runs.ok _ _))

/-- The pairs written one by one: the keys in their order, each with a value of the same content. -/
theorem gives_pairs (env : Env) (frame : Frame) (before : Pairs) (s : Store) :
    ∃ ws s', Runs (Eval.evalEntries env frame before (pairs.map fun p => .pair (.literal (.text p.1)) (source p))) s
        (.ok (Pairs.insertAll before ws)) s' ∧ Pairs.mapValues Value.bare ws = Pairs.mapValues Value.bare pairs := by
  induction pairs generalizing before s with
  | nil => exact ⟨[],s,Runs.ok _ _,rfl⟩
  | cons p rest ih =>
    obtain ⟨first,later⟩ := List.forall_mem_cons.mp displays
    obtain ⟨w,t,here,same⟩ := first.gives env frame s
    obtain ⟨ws,u,there,sames⟩ := ih later (Pairs.insert before p.1 w) t
    refine ⟨(p.1,w) :: ws,u,?_,?_⟩
    · exact (Runs.ok _ s).bind ((StoreM.check_run (v := p.1) rfl).bind (here.bind there))
    · rw [Pairs.mapValues,List.map_cons,same]
      exact congrArg ((p.1,p.2.bare) :: ·) sames

variable (keys : ∀ p ∈ pairs, p.1.isRestorable)

include keys

/-- A key before its colon, and the value behind it. -/
theorem reads_pair {p : Text × Value} (member : p ∈ pairs) (short : (pairText text p).length < n) (parted : Parted x) :
    outcome (rules n).expression ((pairText text p).units ++ x) =
        some (.literal (.text p.1),CodeUnit.ofChar ':' :: CodeUnit.ofChar ' ' :: ((text p).units ++ x)) ∧
      outcome (colonValue (rules n)) (CodeUnit.ofChar ':' :: CodeUnit.ofChar ' ' :: ((text p).units ++ x)) = some (source p,x) := by
  have units := pairText_append text p []
  simp only [List.append_nil] at units
  have length : (pairText text p).length = p.1.escaped.length + ((text p).length + 2) := by
    show (pairText text p).units.length = _
    rw [units,List.length_append,List.length_cons,List.length_cons]
    rfl
  have value := (displays p member).reads n x (by omega) parted
  have key := (displays_text (keys p member)).reads n (CodeUnit.ofChar ':' :: CodeUnit.ofChar ' ' :: ((text p).units ++ x)) (by omega)
    (.cons (by decide))
  have mark (y : List CodeUnit) : skip (CodeUnit.ofChar ':' :: y) = CodeUnit.ofChar ':' :: y := rfl
  have gap (y : List CodeUnit) : skip (CodeUnit.ofChar ' ' :: y) = skip y := rfl
  refine ⟨by rw [pairText_append,key],?_⟩
  simp only [colonValue,outcome_bind,outcome_blanks,mark,Option.bind_some,outcome_unit_self,gap,(displays p member).skip_eq parted,value]

theorem reads_entries {w : List CodeUnit} (closes : Closes w) (parted : Parted w) (short : ∀ p ∈ pairs, (pairText text p).length < n) :
    outcome (more (entry (rules n))) (following (fun p => spaced (pairText text p)) pairs w) =
      some (pairs.map fun p => .pair (.literal (.text p.1)) (source p),w) := by
  refine more_following (fun p member x follows => ?_) closes
  obtain ⟨key,value⟩ := reads_pair displays keys member (short p member) (Parted.of_follows follows parted)
  have blanks : skip (spaced (pairText text p) ++ x) = skip ((pairText text p).units ++ x) := rfl
  rw [blanks,skip_of_opens (opens_of_outcome key)]
  exact outcome_entry key value

theorem displays_mapping (id : Identity) (kept : Pairs.ofList pairs = pairs) :
    Displays (.mapping id pairs) (Value.bracketed "\x7b" "\x7d" (pairs.map (pairText text)))
      (.mapping (pairs.map fun p => .pair (.literal (.text p.1)) (source p))) where
  shown s := (shown_pairs displays s).bind (Runs.ok _ _)
  reads n w enough parted := by
    refine expression_of_primary parted enough fun m length => ?_
    have units := bracketed_append (CodeUnit.ofChar '{') (CodeUnit.ofChar '}') (pairs.map (pairText text)) w
    have short (p) (member : p ∈ pairs) : (pairText text p).length < m := by
      have part := length_lt_bracketed (pairText text) member (CodeUnit.ofChar '{') (CodeUnit.ofChar '}')
      have fits : (Value.bracketed ⟨[CodeUnit.ofChar '{']⟩ ⟨[CodeUnit.ofChar '}']⟩ (pairs.map (pairText text))).length ≤ m := length
      omega
    obtain ⟨closes,-⟩ := closes_cons (c := CodeUnit.ofChar '}') (by simp) w
    have close := outcome_close (w := w) (c := CodeUnit.ofChar '}') rfl
    refine (congrArg (outcome _) units).trans ?_
    cases pairs with
    | nil => exact outcome_primary_brace _ _ rfl
    | cons p rest =>
      obtain ⟨-,later⟩ := List.forall_mem_cons.mp displays
      obtain ⟨-,keys'⟩ := List.forall_mem_cons.mp keys
      have stops := following_stops (fun p => spaced (pairText text p)) rest closes
      have behind : Parted (following (fun p => spaced (pairText text p)) rest (CodeUnit.ofChar '}' :: w)) :=
        Parted.of_follows (follows_following _ _ _) (.cons (by decide))
      obtain ⟨key,value⟩ := reads_pair displays keys List.mem_cons_self (short p List.mem_cons_self) behind
      have opens := opens_of_outcome key
      have clauses : outcome (clauses (rules m).unary) _ = none := stops.clauses_refuses
      have tail := reads_entries later keys' closes (.cons (by decide)) fun q member => short q (List.mem_cons_of_mem _ member)
      rw [join_append]
      refine outcome_primary_braces (skip_of_opens opens) (head_ne_of_opens opens fun _ => rfl) ?_
      simp only [outcome_maybe_bind,key,braceDisplayFrom,value,outcome_orElse,clauses,Option.none_or,outcome_bind,Option.bind_none,
        tail,close,Option.bind_some,outcome_pure,List.map_cons]
  gives env frame s := by
    obtain ⟨ws,t,run,same⟩ := gives_pairs displays env frame [] s
    refine ⟨.mapping t.nextIdentity (Pairs.ofList ws),t.issued 1,run.bind StoreM.compute_mapping_run,?_⟩
    -- The keys decide where the pairs stand, so they stand as they did.
    have content : Value.barePairs (Pairs.ofList ws) = Value.barePairs pairs := by
      rw [Value.barePairs_eq_map,Value.barePairs_eq_map]
      show Pairs.mapValues Value.bare _ = Pairs.mapValues Value.bare _
      rw [← Pairs.ofList_mapValues,same,Pairs.ofList_mapValues,kept]
    rw [Value.bare,Value.bare,content]

end Mappings

/-! ## Every value -/

/-- Expressions for all values of a kind that there is one for each. -/
theorem exists_displays {ι : Type} {value : ι → Value} {is : List ι} (each : ∀ i ∈ is, ∃ t e, Displays (value i) t e) :
    ∃ (text : ι → Text) (source : ι → Expr), ∀ i ∈ is, Displays (value i) (text i) (source i) := by
  have total (i : ι) : ∃ t e, i ∈ is → Displays (value i) t e := by
    by_cases member : i ∈ is
    · obtain ⟨t,e,displays⟩ := each i member
      exact ⟨t,e,fun _ => displays⟩
    · exact ⟨.empty,.literal .null,fun found => absurd found member⟩
  choose text source displays using total
  exact ⟨text,source,displays⟩

theorem Value.Restorable.displays {v : Value} (restorable : v.Restorable) : ∃ t e, Displays v t e := by
  induction restorable with
  | null => exact ⟨_,_,displays_null⟩
  | bool b => exact ⟨_,_,displays_bool b⟩
  | @integer i small =>
    obtain ⟨k,rfl | rfl⟩ := i.eq_nat_or_neg
    · exact ⟨_,_,displays_ofNat (by omega)⟩
    · rcases Nat.eq_zero_or_pos k with rfl | positive
      · exact ⟨_,_,displays_ofNat (by decide)⟩
      · exact ⟨_,_,displays_neg positive (by omega)⟩
  | text plain => exact ⟨_,_,displays_text plain⟩
  | list each ih =>
    obtain ⟨text,source,displays⟩ := exists_displays ih
    exact ⟨_,_,displays_list displays _⟩
  | mapping kept keys each ih =>
    obtain ⟨text,source,displays⟩ := exists_displays ih
    exact ⟨_,_,displays_mapping displays keys _ kept⟩

/-- A value made of null, booleans, small integers, texts without backspaces and form feeds, lists and mappings is shown by a
text that, within the limit on the length, is evaluated to a value of the same content, keys in the same order. -/
theorem evaluate_display (host : Host) (calls : Calls) (locals : Pairs) (s : Store) {v : Value} (restorable : v.Restorable) :
    ∃ t, Runs (StoreM.display v) s (.ok t) s ∧
      (Expression.guardLength s.session.settings.maxExpressionLength t = .ok t →
        ∃ w s', Runs (Expression.evaluate host calls t locals) s (.ok w) s' ∧ w.bare = v.bare) := by
  obtain ⟨t,e,displays⟩ := restorable.displays
  refine ⟨t,displays.shown s,fun within => ?_⟩
  have parsed : parseExpression t = .ok e := by
    refine parseExpression_of_outcome ?_
    have whole := displays.reads (t.length + 1) [] (Nat.lt_succ_self _) (.inl rfl)
    rwa [List.append_nil] at whole
  have read : Expression.read parseExpression s.session.settings.maxExpressionLength t = .ok e := by
    simp only [Expression.read,within,parsed]
    rfl
  obtain ⟨w,s',run,same⟩ := displays.gives (Expression.env host calls s.session.context locals) [] s
  exact ⟨w,s',StoreM.getSession_run.bind ((StoreM.check_run read).bind (Runs.tryCatch_ok run)),same⟩

/-- Under the keys that name nothing in a tree stand a negative integer and a text with a quote and a line end. -/
theorem evaluate_display_nested : ∃ t, Runs (StoreM.display (.mapping 0 [("__proto__",.list 1 [.ofInt (-1),.text "\"\n"]),("",.null)]))
      (.empty 2) (.ok t) (.empty 2) ∧
    ∃ w s', Runs (Expression.evaluate (.bare [] "/") (.ofDepth (.bare [] "/") 1) t []) (.empty 2) (.ok w) s' ∧
      w.bare = .mapping 0 [("__proto__",.list 0 [.ofInt (-1),.text "\"\n"]),("",.null)] := by
  have restorable : Value.Restorable (.mapping 0 [("__proto__",.list 1 [.ofInt (-1),.text "\"\n"]),("",.null)]) := by
    have items : ∀ v ∈ [Value.ofInt (-1),.text "\"\n"], v.Restorable := by
      simp only [List.forall_mem_cons,List.not_mem_nil,false_imp_iff,implies_true,and_true]
      exact ⟨.integer (by decide),.text (by decide)⟩
    refine .mapping rfl (by decide) ?_
    simp only [List.forall_mem_cons,List.not_mem_nil,false_imp_iff,implies_true,and_true]
    exact ⟨.list items,.null⟩
  obtain ⟨t,shown,gives⟩ := evaluate_display (.bare [] "/") (.ofDepth (.bare [] "/") 1) [] (.empty 2) restorable
  have number : (Number.ofInt (-1)).text = "-1" := Number.text_neg_ofNat (n := 1) (by decide) (by decide)
  have parts : Runs (StoreM.display (.mapping 0 [("__proto__",.list 1 [.ofInt (-1),.text "\"\n"]),("",.null)])) (.empty 2)
      (.ok (Value.bracketed "\x7b" "\x7d" [.concat [("__proto__" : Text).escaped,": ",
        Value.bracketed "[" "]" [(Number.ofInt (-1)).text,("\"\n" : Text).escaped]],.concat [("" : Text).escaped,": ","null"]])) (.empty 2) := rfl
  have text : t = "\x7b\"__proto__\": [-1, \"\\\"\\n\"], \"\": null\x7d" := by
    rw [Except.ok.inj (Runs.unique shown parts).1,number]
    decide
  refine ⟨t,shown,gives ?_⟩
  rw [text]
  exact if_neg (by decide +kernel)

end ConfTree
