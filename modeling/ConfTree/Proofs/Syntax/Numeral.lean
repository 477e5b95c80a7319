import ConfTree.Proofs.Rounding
import ConfTree.Proofs.Syntax.Token
import ConfTree.Text.Quote

/-!
# Written numbers and texts

The decimal digits of a natural number read as that number, below `2 ^ 53` without loss; a text whose
units are all written by their hexadecimal digits reads as that text.
-/
namespace ConfTree

open Reader

/-! ## Joined texts -/

theorem Text.units_join_cons (separator head : Text) (tail : List Text) :
    (Text.join separator (head :: tail)).units = head.units ++ tail.flatMap fun t => separator.units ++ t.units := by
  induction tail generalizing head with
  | nil => simp [Text.join]
  | cons t tail ih =>
    have rest := ih t
    simp only [Text.join,List.map_cons] at rest ⊢
    rw [List.intercalate_cons_cons,rest,List.flatMap_cons,List.append_assoc,List.append_assoc]

/-! ## Digits -/

theorem ofChar_toNat {c : Char} (digit : c.isDigit) : (CodeUnit.ofChar c).toNat = c.toNat := by
  have range : 48 ≤ c.toNat ∧ c.toNat ≤ 57 := by
    simpa [Char.isDigit,UInt32.le_iff_toNat_le] using digit
  rw [CodeUnit.ofChar,UInt32.toNat_toUInt16]
  exact Nat.mod_eq_of_lt (show c.toNat < 65536 by omega)

theorem isDigit_ofChar {c : Char} (digit : c.isDigit) : (CodeUnit.ofChar c).isDigit := by
  have range : 48 ≤ c.toNat ∧ c.toNat ≤ 57 := by
    simpa [Char.isDigit,UInt32.le_iff_toNat_le] using digit
  rw [CodeUnit.isDigit,Bool.and_eq_true,decide_eq_true_eq,decide_eq_true_eq,UInt16.le_iff_toNat_le,
    UInt16.le_iff_toNat_le,ofChar_toNat digit]
  exact range

theorem hexValue?_of_isDigit {u : CodeUnit} (h : u.isDigit) : u.hexValue? = some (u.toNat - 0x30) := by
  rw [CodeUnit.hexValue?,if_pos h]

theorem Text.isDigit_of_mem_ofNat {n : Nat} {u : CodeUnit} (h : u ∈ (Text.ofNat n).units) : u.isDigit := by
  obtain ⟨c,hc,rfl⟩ := List.mem_map.mp h
  exact isDigit_ofChar (Nat.isDigit_of_mem_toDigits (by decide) (by decide) hc)

theorem Text.ofNat_units_ne_nil (n : Nat) : (Text.ofNat n).units ≠ [] :=
  fun h => Nat.toDigits_ne_nil (List.map_eq_nil_iff.mp h)

/-- A digit is no blank, sign or letter. -/
theorem digit_facts {u : CodeUnit} (h : u.isDigit) : u.isBlank = false ∧ u ≠ CodeUnit.ofChar '-' ∧
    u ≠ CodeUnit.ofChar '+' ∧ u.isLetter = false := by
  have range : 48 ≤ u.toNat ∧ u.toNat ≤ 57 := by
    simpa [CodeUnit.isDigit,UInt16.le_iff_toNat_le] using h
  simp only [CodeUnit.isBlank,CodeUnit.isLetter,Bool.or_eq_false_iff,Bool.and_eq_false_iff,
    decide_eq_false_iff_not,beq_eq_false_iff_ne,ne_eq,← UInt16.toNat_inj,UInt16.le_iff_toNat_le]
  simp [CodeUnit.ofChar]
  omega

namespace Number

theorem valueOfDigits_ofNat (n : Nat) : valueOfDigits 10 (Text.ofNat n).units = n := by
  have fold (ds : List Char) (init : Nat) (h : ∀ c ∈ ds, c.isDigit) :
      (ds.map CodeUnit.ofChar).foldl (fun n u => n * 10 + (u.hexValue?.getD 0)) init = Nat.ofDigitChars 10 ds init := by
    induction ds generalizing init with
    | nil => rfl
    | cons c ds ih =>
      obtain ⟨digit,rest⟩ := List.forall_mem_cons.mp h
      rw [List.map_cons,List.foldl_cons,Nat.ofDigitChars,List.foldl_cons,hexValue?_of_isDigit (isDigit_ofChar digit),
        ofChar_toNat digit,ih _ rest,Nat.mul_comm]
      rfl
  unfold valueOfDigits Text.ofNat
  rw [fold _ _ fun c hc => Nat.isDigit_of_mem_toDigits (by decide) (by decide) hc,
    Nat.ofDigitChars_toDigits (by decide) (by decide)]

theorem ofDecimal_whole (n : Nat) : ofDecimal false n 0 = ofNat n := by
  rw [ofNat_eq]
  by_cases h : n = 0
  · rw [h,Nat.zero_mul,ofRatio,if_pos (roundSteps_eq_zero.mpr rfl),ofDecimal,if_pos rfl]
  · have length : ¬ (digitCount n : Int) + 0 < -400 := by omega
    rw [ofDecimal,if_neg h,if_neg (by decide),if_neg length]
    simp only [decimalRatio,Int.lt_irrefl,if_false,Int.toNat_zero,Nat.pow_eq,Nat.pow_zero,Nat.mul_one]

/-- The digits of a natural number write the number nearest to it. -/
theorem ofText_ofNat (n : Nat) : ofText (Text.ofNat n) = ofNat n := by
  have digits {u : CodeUnit} (h : u ∈ (Text.ofNat n).units) : u.isDigit := Text.isDigit_of_mem_ofNat h
  have value := valueOfDigits_ofNat n
  have ne := Text.ofNat_units_ne_nil n
  revert digits value ne
  generalize Text.ofNat n = t
  obtain ⟨us⟩ := t
  intro digits value ne
  have skip_all {us : List CodeUnit} (h : ∀ u ∈ us, u.isDigit) : Text.skipBlanks us = us := by
    cases us with
    | nil => rfl
    | cons u us =>
      have := (digit_facts (h u List.mem_cons_self)).1
      simp [Text.skipBlanks,this]
  have trim : (⟨us⟩ : Text).trim = ⟨us⟩ := by
    rw [Text.trim,skip_all fun _ => digits,skip_all (by simpa using fun _ => digits),List.reverse_reverse]
  have span : us.span CodeUnit.isDigit = (us,[]) := by
    rw [List.span_eq_takeWhile_dropWhile,List.takeWhile_eq_self_iff.mpr fun _ => digits,
      List.dropWhile_eq_nil_iff.mpr fun _ => digits]
  have decimal : readDecimal? false us = some (ofNat n) := by
    simp only [readDecimal?,span,splitFraction,List.append_nil,value,List.isEmpty_eq_false_iff.mpr ne,
      List.length_nil,Int.ofNat_zero,Int.neg_zero,ofDecimal_whole,Bool.false_and,Bool.false_eq_true,if_false]
  obtain ⟨u,x,rfl⟩ := List.exists_cons_of_ne_nil ne
  obtain ⟨-,minus,plus,-⟩ := digit_facts (digits List.mem_cons_self)
  have signed : ofLiteral?.signed (u :: x) = some (ofNat n) := by
    have infinite : u :: x ≠ infinityLiteral.units := by
      rintro e
      have := digits (List.mem_cons_self (a := u) (l := x))
      rw [(List.cons.inj e).1] at this
      exact absurd this (by decide)
    simp [ofLiteral?.signed,splitSign,minus,plus,infinite,decimal]
  have literal : ofLiteral? (u :: x) = some (ofNat n) := by
    cases x with
    | nil => exact signed
    | cons v y =>
      have letter := (digit_facts (digits (List.mem_cons_of_mem u List.mem_cons_self))).2.2.2
      have letters : ∀ c ∈ ['x','X','o','O','b','B'], (CodeUnit.ofChar c).isLetter = true := by
        simp only [List.forall_mem_cons,List.not_mem_nil,false_imp_iff,implies_true,and_true]
        decide
      have base (c : Char) (hc : c ∈ ['x','X','o','O','b','B']) : v ≠ CodeUnit.ofChar c := by
        rintro rfl
        rw [letters c hc] at letter
        cases letter
      simp [ofLiteral?,base,signed]
  rw [ofText,trim,literal,Option.getD_some]

end Number

namespace Token

variable {w : List CodeUnit}

theorem outcome_digits (n : Nat) (digit : ¬ w.head?.any CodeUnit.isDigit) :
    outcome digits ((Text.ofNat n).units ++ w) = some ((Text.ofNat n).units,w) := by
  obtain ⟨u,x,e⟩ := List.exists_cons_of_ne_nil (Text.ofNat_units_ne_nil n)
  have all (c : CodeUnit) (hc : c ∈ u :: x) : c.isDigit := Text.isDigit_of_mem_ofNat (e ▸ hc)
  rw [← reads_nil,e]
  simp only [digits,units1Of,reads_bind,reads_unitOf,reads_unitsOf,reads_pure]
  exact ⟨u,x ++ w,⟨rfl,all u List.mem_cons_self⟩,x,w,⟨rfl,fun c hc => all c (List.mem_cons_of_mem u hc),
    by simpa using digit⟩,rfl,rfl⟩

theorem not_isDigit_of_not_inName (name : ¬ w.head?.any CodeUnit.inName) : ¬ w.head?.any CodeUnit.isDigit := by
  cases w with
  | nil => simp
  | cons u x => simp [CodeUnit.inName] at name; simp [name.2]

/-- The digits of a natural number, where neither a name nor a fraction goes on. -/
theorem outcome_number (n : Nat) (name : ¬ w.head?.any CodeUnit.inName) (point : w.head? ≠ some (CodeUnit.ofChar '.')) :
    outcome number ((Text.ofNat n).units ++ w) = some (.ofNat n,w) := by
  have letter : ¬ w.head?.any fun u => u == CodeUnit.ofChar 'e' || u == CodeUnit.ofChar 'E' := by
    cases w with
    | nil => simp
    | cons u x =>
      simp only [List.head?_cons,Option.any_some,Bool.or_eq_true,beq_iff_eq]
      rintro (rfl | rfl) <;> exact absurd rfl name
  have run := outcome_digits n (not_isDigit_of_not_inName name)
  have fraction_refuses : outcome fraction w = none := (refuses_unit.mpr point).bind _
  have exponent_refuses : outcome exponent w = none := (refuses_discard.mpr (refuses_unitOf.mpr letter)).bind _
  have whole : Reads [] (withSource (orElse (do discard digits; discard (maybe fraction); discard (maybe exponent))
      (do unit '.'; discard digits; discard (maybe exponent)))) ((Text.ofNat n).units ++ w) ((),Text.ofNat n) w := by
    refine reads_withSource.mpr ⟨reads_nil.mpr ?_,rfl⟩
    simp [outcome_orElse,outcome_bind,outcome_discard,run,outcome_maybe,fraction_refuses,exponent_refuses]
  have name_refuses : outcome (notAhead CodeUnit.inName) w = some ((),w) := by rw [outcome_notAhead,if_neg name]
  simp only [number,outcome_bind,reads_nil.mp whole,Option.bind_some,name_refuses,outcome_pure,Number.ofText_ofNat]

/-! ## Quoted texts -/

theorem hexValue?_hexDigit : ∀ d < 16, (Text.Quote.hexDigit d).hexValue? = some d := by decide

theorem outcome_quotedUnit (u : CodeUnit) :
    outcome (quotedUnit '"') (Text.Quote.hexEscape u ++ w) = some (u,w) := by
  have digit (k : Nat) : (Text.Quote.hexDigit (k % 16)).hexValue? = some (k % 16) :=
    hexValue?_hexDigit _ (Nat.mod_lt _ (by decide))
  have value : (Number.valueOfDigits 16 [Text.Quote.hexDigit (u.toNat / 0x1000 % 16),
      Text.Quote.hexDigit (u.toNat / 0x100 % 16),Text.Quote.hexDigit (u.toNat / 16 % 16),
      Text.Quote.hexDigit (u.toNat % 16)]).toUInt16 = u := by
    have bound := u.toNat_lt
    have sum : (((0 * 16 + u.toNat / 0x1000 % 16) * 16 + u.toNat / 0x100 % 16) * 16 + u.toNat / 16 % 16) * 16 +
        u.toNat % 16 = u.toNat := by omega
    simp only [Number.valueOfDigits,List.foldl_cons,List.foldl_nil,digit,Option.getD_some,sum]
    exact UInt16.ofNat_toNat
  have hex : outcome hexUnit (Text.Quote.hexDigit (u.toNat / 0x1000 % 16) :: Text.Quote.hexDigit (u.toNat / 0x100 % 16) ::
      Text.Quote.hexDigit (u.toNat / 16 % 16) :: Text.Quote.hexDigit (u.toNat % 16) :: w) = some (u,w) := by
    simp [hexUnit,outcome_bind,outcome_map,outcome_unitOf,digit,value]
  have plain : outcome (unitOf fun c => c != CodeUnit.ofChar '"' && c != CodeUnit.ofChar '\\' && c != CodeUnit.ofChar '\r' &&
      c != CodeUnit.ofChar '\n') (Text.Quote.hexEscape u ++ w) = none := rfl
  have mark : outcome (unit '\\') (Text.Quote.hexEscape u ++ w) = some ((),(Text.Quote.hexEscape u ++ w).tail) := rfl
  have letter : outcome escaped (Text.Quote.hexEscape u ++ w).tail = some (u,w) := by
    have first : outcome (unitOf fun _ => true) (Text.Quote.hexEscape u ++ w).tail =
      some (CodeUnit.ofChar 'u',(Text.Quote.hexEscape u ++ w).tail.tail) := rfl
    rw [escaped,outcome_bind,first,Option.bind_some]
    show outcome (orElse hexUnit (pure _)) _ = _
    rw [outcome_orElse]
    exact congrArg (Option.or · _) hex
  simp only [quotedUnit,outcome_orElse,plain,Option.none_or,outcome_bind,mark,Option.bind_some,letter]

theorem outcome_quoted (t : Text) :
    outcome quoted (CodeUnit.ofChar '"' :: (t.units.flatMap Text.Quote.hexEscape ++ CodeUnit.ofChar '"' :: w)) =
      some (t,w) := by
  obtain ⟨us⟩ := t
  have stop : Refuses (quotedUnit '"') (CodeUnit.ofChar '"' :: w) := rfl
  have units : Many (fun t a w => outcome (quotedUnit '"') t = some (a,w))
      (us.flatMap Text.Quote.hexEscape ++ CodeUnit.ofChar '"' :: w) us (CodeUnit.ofChar '"' :: w) := by
    induction us with
    | nil => exact .nil _
    | cons u us ih =>
      rw [List.flatMap_cons,List.append_assoc]
      exact .cons (outcome_quotedUnit u) ih
  simp [quoted,quotedBy,outcome_orElse,outcome_bind,outcome_map,outcome_unit_self,
    outcome_many.mpr ⟨units,stop⟩]

end Token

end ConfTree
