import ConfTree.Address
import ConfTree.Proofs.Keys.Splitting

/-!
# The form of a raw key

A raw key is a name with white space around it; behind it, types may stand after a colon, and modifiers after another one
(`Key.Written`). The types have no colon in them and the modifiers stand on one line once they are trimmed. Exactly these keys
are read, if the name is not reserved and each part is a list of expressions (`Key.parse_exact`).
-/
namespace ConfTree

/-! ## Trimming -/

namespace Text

variable {us a b : List CodeUnit}

theorem trim_before (blank : ∀ u ∈ a, u.isBlank = true) : trim ⟨a ++ us⟩ = trim ⟨us⟩ := by
  have skipped : skipBlanks (a ++ us) = skipBlanks us := List.dropWhile_append_of_pos blank
  rw [trim,trim,skipped]

theorem trim_after (blank : ∀ u ∈ b, u.isBlank = true) : trim ⟨us ++ b⟩ = trim ⟨us⟩ := by
  by_cases all : ∀ u ∈ us, u.isBlank = true
  · have nothing : skipBlanks b = [] := List.dropWhile_eq_nil_iff.mpr blank
    have nothing' : skipBlanks us = [] := List.dropWhile_eq_nil_iff.mpr all
    have skipped : skipBlanks (us ++ b) = skipBlanks b := List.dropWhile_append_of_pos all
    rw [trim,trim,skipped,nothing,nothing']
  · have kept : us.dropWhile CodeUnit.isBlank ≠ [] := fun nothing => all (List.dropWhile_eq_nil_iff.mp nothing)
    have skipped : skipBlanks (us ++ b) = skipBlanks us ++ b := by
      rw [skipBlanks,skipBlanks,List.dropWhile_append,if_neg (by simpa using kept)]
    rw [trim,trim,skipped]
    exact congrArg Text.mk (Key.dropEnd_blank blank)

/-- White space around a text is trimmed with it. -/
theorem trim_around (before : ∀ u ∈ a, u.isBlank = true) (after : ∀ u ∈ b, u.isBlank = true) : trim ⟨a ++ us ++ b⟩ = trim ⟨us⟩ := by
  rw [List.append_assoc,trim_before before,trim_after after]

end Text

namespace Key

variable {us a b n t m : List CodeUnit} {p : Parts} {raw : Text} {key : Key}

/-! ## The parts of a key -/

/-- A run of white space. -/
def IsBlank (us : List CodeUnit) : Prop := ∀ u ∈ us, u.isBlank = true

instance (us : List CodeUnit) : Decidable (IsBlank us) := List.decidableBAll _ us

/-- No line ends in the list. -/
def IsLine (us : List CodeUnit) : Prop := ∀ u ∈ us, u.endsLine = false

instance (us : List CodeUnit) : Decidable (IsLine us) := List.decidableBAll _ us

/-- How a raw key is written, with its parts. -/
inductive Written : List CodeUnit → Parts → Prop
  | name {a b n : List CodeUnit} (before : IsBlank a) (name : Address.isName n = true) (after : IsBlank b) :
      Written (a ++ n ++ b) ⟨⟨n⟩,.empty,.empty⟩
  | types {a b n t : List CodeUnit} (before : IsBlank a) (name : Address.isName n = true) (after : IsBlank b)
      (whole : CodeUnit.ofChar ':' ∉ t) : Written (a ++ n ++ (b ++ CodeUnit.ofChar ':' :: t)) ⟨⟨n⟩,Text.trim ⟨t⟩,.empty⟩
  | modifiers {a b n t m : List CodeUnit} (before : IsBlank a) (name : Address.isName n = true) (after : IsBlank b)
      (whole : CodeUnit.ofChar ':' ∉ t) (line : IsLine (Text.trim ⟨m⟩).units) :
      Written (a ++ n ++ (b ++ CodeUnit.ofChar ':' :: (t ++ CodeUnit.ofChar ':' :: m))) ⟨⟨n⟩,Text.trim ⟨t⟩,Text.trim ⟨m⟩⟩

/-- A name with white space before it, and what follows it. -/
theorem split?_named (before : IsBlank a) (name : Address.isName n = true) (ends : us.head?.all (!CodeUnit.inName ·)) :
    split? ⟨a ++ n ++ us⟩ = partsAfter ⟨n⟩ (Text.skipBlanks us) := by
  cases n with
  | nil => cases name
  | cons u n =>
    obtain ⟨starts,further⟩ : u.startsName = true ∧ ∀ v ∈ n, v.inName = true := by simpa [Address.isName] using name
    have inside : ∀ v ∈ u :: n, v.inName = true := List.forall_mem_cons.mpr ⟨by simp [CodeUnit.inName,starts],further⟩
    have front : Text.skipBlanks (a ++ u :: n ++ us) = u :: n ++ us := by
      rw [List.append_assoc,skipBlanks_append before]
      exact skipBlanks_cons_of_not (not_isBlank_of_inName (inside u List.mem_cons_self))
    have stops : us.takeWhile CodeUnit.inName = [] ∧ us.dropWhile CodeUnit.inName = us := by
      cases us with
      | nil => exact ⟨rfl,rfl⟩
      | cons v us =>
        have outside : ¬ v.inName = true := by simpa using ends
        exact ⟨List.takeWhile_cons_of_neg outside,List.dropWhile_cons_of_neg outside⟩
    rw [split?_eq,front,if_pos (by simpa using starts),List.takeWhile_append_of_pos inside,List.dropWhile_append_of_pos inside,
      stops.1,stops.2,List.append_nil]

theorem all_isNoColon (whole : CodeUnit.ofChar ':' ∉ t) : ∀ u ∈ t, isNoColon u = true := fun _ member =>
  isNoColon_iff.mpr fun same => whole (same ▸ member)

/-- What stands behind one colon, when no other one follows. -/
theorem partsAfter_one {name : Text} (whole : CodeUnit.ofChar ':' ∉ t) :
    partsAfter name (CodeUnit.ofChar ':' :: t) = some ⟨name,Text.trim ⟨t⟩,.empty⟩ := by
  have all := all_isNoColon whole
  have nothing : t.dropWhile isNoColon = [] := List.dropWhile_eq_nil_iff.mpr all
  rw [partsAfter,if_neg (by decide),nothing,List.takeWhile_eq_self_iff.mpr all]
  rfl

/-- What stands behind two colons. -/
theorem partsAfter_two {name : Text} (whole : CodeUnit.ofChar ':' ∉ t) :
    partsAfter name (CodeUnit.ofChar ':' :: (t ++ CodeUnit.ofChar ':' :: m)) =
      if (Text.trim ⟨m⟩).units.any CodeUnit.endsLine then none else some ⟨name,Text.trim ⟨t⟩,Text.trim ⟨m⟩⟩ := by
  have all := all_isNoColon whole
  have colon : ¬ isNoColon (CodeUnit.ofChar ':') = true := by decide
  rw [partsAfter,if_neg colon,List.takeWhile_append_of_pos all,List.dropWhile_append_of_pos all,List.takeWhile_cons_of_neg colon,
    List.dropWhile_cons_of_neg colon,List.append_nil]
  rfl

/-- A list has no colon, or a first one. -/
theorem exists_colon (us : List CodeUnit) : CodeUnit.ofChar ':' ∉ us ∨
    ∃ t m, CodeUnit.ofChar ':' ∉ t ∧ us = t ++ CodeUnit.ofChar ':' :: m := by
  have apart : CodeUnit.ofChar ':' ∉ us.takeWhile isNoColon := fun member => isNoColon_iff.mp (List.mem_takeWhile_imp member) rfl
  have cut := (List.takeWhile_append_dropWhile (p := isNoColon) (l := us)).symm
  have begins := head_dropWhile_isNoColon us
  rcases rest : us.dropWhile isNoColon with _ | ⟨u,m⟩
  · rw [rest,List.append_nil] at cut
    exact .inl (cut ▸ apart)
  · rw [rest] at cut begins
    obtain rfl : u = CodeUnit.ofChar ':' := by simpa [isNoColon] using begins
    exact .inr ⟨_,m,apart,cut⟩

theorem ends_name (after : IsBlank b) (ends : us.head?.all (!CodeUnit.inName ·)) : (b ++ us).head?.all (!CodeUnit.inName ·) := by
  cases b with
  | nil => exact ends
  | cons u b =>
    have outside : u.inName = false := by
      by_contra inside
      exact absurd (after u List.mem_cons_self) (by simp [not_isBlank_of_inName (by simpa using inside)])
    simpa using outside

theorem split?_of_written (written : Written us p) : split? ⟨us⟩ = some p := by
  cases written with
  | name before name after =>
    have ends := ends_name after (show ([] : List CodeUnit).head?.all (!CodeUnit.inName ·) from rfl)
    rw [List.append_nil] at ends
    rw [split?_named before name ends,
      show Text.skipBlanks _ = [] from List.dropWhile_eq_nil_iff.mpr after]
    rfl
  | types before name after whole =>
    rw [split?_named before name (ends_name after (by simp; decide)),skipBlanks_append after,
      skipBlanks_cons_of_not (by decide),partsAfter_one whole]
  | modifiers before name after whole line =>
    rw [split?_named before name (ends_name after (by simp; decide)),skipBlanks_append after,
      skipBlanks_cons_of_not (by decide),partsAfter_two whole,if_neg (by simpa [IsLine] using line)]

theorem takeWhile_isBlank_append (us : List CodeUnit) : us.takeWhile CodeUnit.isBlank ++ Text.skipBlanks us = us :=
  List.takeWhile_append_dropWhile

/-- What a list that is split begins with: white space and a name, then white space and what was split off. -/
theorem exists_of_split? (parts : split? ⟨us⟩ = some p) : ∃ a n b rest, IsBlank a ∧ Address.isName n = true ∧ IsBlank b ∧
    us = a ++ n ++ (b ++ rest) ∧ partsAfter ⟨n⟩ rest = some p := by
  rw [split?_eq] at parts
  split at parts
  case isFalse => cases parts
  case isTrue starts =>
    refine ⟨us.takeWhile CodeUnit.isBlank,_,((Text.skipBlanks us).dropWhile CodeUnit.inName).takeWhile CodeUnit.isBlank,_,
      fun _ => List.mem_takeWhile_imp,?_,fun _ => List.mem_takeWhile_imp,?_,parts⟩
    · rcases front : Text.skipBlanks us with _ | ⟨u,named⟩
      · simp [front] at starts
      · have starts : u.startsName = true := by simpa [front] using starts
        have inside : u.inName = true := by simp [CodeUnit.inName,starts]
        rw [List.takeWhile_cons_of_pos inside]
        simp only [Address.isName,starts,Bool.true_and]
        exact List.all_takeWhile
    · rw [takeWhile_isBlank_append,List.append_assoc,List.takeWhile_append_dropWhile,takeWhile_isBlank_append]

theorem written_of_split? (parts : split? ⟨us⟩ = some p) : Written us p := by
  obtain ⟨a,n,b,rest,before,name,after,rfl,declared⟩ := exists_of_split? parts
  rcases rest with _ | ⟨u,rest⟩
  · cases declared
    rw [List.append_nil]
    exact .name before name after
  · by_cases other : isNoColon u = true
    · rw [partsAfter,if_pos other] at declared
      cases declared
    · obtain rfl : u = CodeUnit.ofChar ':' := by simpa [isNoColon] using other
      rcases exists_colon rest with whole | ⟨t,m,whole,rfl⟩
      · rw [partsAfter_one whole] at declared
        cases declared
        exact .types before name after whole
      · rw [partsAfter_two whole] at declared
        split at declared
        case isTrue => cases declared
        case isFalse line =>
          cases declared
          exact .modifiers before name after whole (by simpa [IsLine] using line)

/-- A key is split into parts just if it is written with them. -/
theorem split?_iff : split? raw = some p ↔ Written raw.units p := ⟨written_of_split?,split?_of_written⟩

/-! ## Reading a key -/

/-- What may be declared: nothing, or a list of expressions. -/
def IsList (part : Text) : Prop := part.isEmpty = true ∨ (Grammar.parseList part).isOk = true

instance (part : Text) : Decidable (IsList part) := inferInstanceAs (Decidable (_ ∨ _))

/-- A part that counts as absent if it is empty. -/
def present (part : Text) : Option Text := if part.isEmpty then none else some part

theorem checkPart_of_isList {part : Text} (list : IsList part) : checkPart raw part = .ok (present part) := by
  rw [checkPart,present]
  split
  · rfl
  · next declared =>
    rcases list with absent | parsed
    · exact absurd absent declared
    · cases outcome : Grammar.parseList part with
      | ok es => rfl
      | error position => simp [outcome,Except.isOk,Except.toBool] at parsed

theorem exists_checkPart_error (raw : Text) {part : Text} (other : ¬ IsList part) : ∃ issue, checkPart raw part = .error issue := by
  obtain ⟨declared,failed⟩ := not_or.mp other
  rw [checkPart,if_neg declared]
  cases outcome : Grammar.parseList part with
  | ok es => simp [outcome,Except.isOk,Except.toBool] at failed
  | error position => exact ⟨_,rfl⟩

/-- The parts of a key that is read. -/
def Readable (p : Parts) : Prop := p.name ≠ reserved ∧ IsList p.types ∧ IsList p.modifiers

instance (p : Parts) : Decidable (Readable p) := inferInstanceAs (Decidable (_ ∧ _ ∧ _))

/-- The key with given parts. -/
def ofParts (p : Parts) : Key := ⟨p.name,⟨present p.types,present p.modifiers⟩⟩

theorem parse_of_readable (parts : split? raw = some p) (readable : Readable p) : parse raw = .ok (ofParts p) := by
  obtain ⟨free,types,modifiers⟩ := readable
  simp only [parse,parts,if_neg free,checkPart_of_isList types,checkPart_of_isList modifiers]
  rfl

theorem exists_parse_error (parts : split? raw = some p) (other : ¬ Readable p) : ∃ issue, parse raw = .error issue := by
  by_cases taken : p.name = reserved
  · exact ⟨_,by simp only [parse,parts,if_pos taken]; rfl⟩
  · by_cases types : IsList p.types
    · have modifiers : ¬ IsList p.modifiers := fun modifiers => other ⟨taken,types,modifiers⟩
      obtain ⟨issue,failed⟩ := exists_checkPart_error raw modifiers
      exact ⟨issue,by simp only [parse,parts,if_neg taken,checkPart_of_isList types,failed]; rfl⟩
    · obtain ⟨issue,failed⟩ := exists_checkPart_error raw types
      exact ⟨issue,by simp only [parse,parts,if_neg taken,failed]; rfl⟩

theorem parse_iff : parse raw = .ok key ↔ ∃ p, split? raw = some p ∧ Readable p ∧ key = ofParts p := by
  constructor
  · intro read
    cases parts : split? raw with
    | none => simp only [parse,parts,reduceCtorEq] at read
    | some p =>
      by_cases readable : Readable p
      · exact ⟨p,rfl,readable,Except.ok.inj (read.symm.trans (parse_of_readable parts readable))⟩
      · obtain ⟨issue,failed⟩ := exists_parse_error parts readable
        cases read.symm.trans failed
  · rintro ⟨p,parts,readable,rfl⟩
    exact parse_of_readable parts readable

/-- A raw key is read just if it is written as a name that is not reserved, with lists of expressions for its types and its
modifiers, and it is read as these; its parts are what the pattern takes. Whatever white space stands around a name and around
declared texts, these texts are what is read. -/
theorem parse_exact : (∀ raw key, parse raw = .ok key ↔ ∃ p, Written raw.units p ∧ Readable p ∧ key = ofParts p) ∧
    (∀ raw, split? raw = (pattern.groups? raw).map partsOf) ∧
    ∀ (a b c d e f : List CodeUnit) (name types modifiers : Text),
      IsBlank a → IsBlank b → IsBlank c → IsBlank d → IsBlank e → IsBlank f →
      Address.isName name.units = true → types.trim = types → modifiers.trim = modifiers → CodeUnit.ofChar ':' ∉ types.units →
      IsLine modifiers.units → Readable ⟨name,types,modifiers⟩ →
      parse ⟨a ++ name.units ++ b ++ [CodeUnit.ofChar ':'] ++ c ++ types.units ++ d ++ [CodeUnit.ofChar ':'] ++
          e ++ modifiers.units ++ f⟩ =
        .ok ⟨name,⟨present types,present modifiers⟩⟩ := by
  refine ⟨fun raw key => by simp only [parse_iff,split?_iff],split?_eq_groups?,?_⟩
  intro a b c d e f ⟨n⟩ ⟨t⟩ ⟨m⟩ before after before_types after_types before_modifiers after_modifiers
    name types modifiers whole line readable
  have types_cut : Text.trim ⟨c ++ t ++ d⟩ = ⟨t⟩ := (Text.trim_around before_types after_types).trans types
  have modifiers_cut : Text.trim ⟨e ++ m ++ f⟩ = ⟨m⟩ := (Text.trim_around before_modifiers after_modifiers).trans modifiers
  have no_colon {us : List CodeUnit} (blank : IsBlank us) : CodeUnit.ofChar ':' ∉ us := fun member => absurd (blank _ member) (by decide)
  have written := Written.modifiers (t := c ++ t ++ d) (m := e ++ m ++ f) before name after
    (by simpa [no_colon before_types,no_colon after_types] using whole) (by rwa [modifiers_cut])
  rw [types_cut,modifiers_cut] at written
  refine parse_iff.mpr ⟨_,split?_iff.mpr ?_,readable,rfl⟩
  simpa using written

/-- A key with white space around all its parts. -/
theorem parse_exact_spread : parse " lr : float, null : choices(\x7b'a': 1\x7d) " =
    .ok ⟨"lr",⟨some "float, null",some "choices(\x7b'a': 1\x7d)"⟩⟩ := by
  have blank : IsBlank (" " : Text).units := by decide +kernel
  have read := parse_exact.2.2 _ _ _ _ _ _ "lr" "float, null" "choices(\x7b'a': 1\x7d)" blank blank blank blank blank blank
    (by decide +kernel) (by decide +kernel) (by decide +kernel) (by decide +kernel) (by decide +kernel) (by decide +kernel)
  rw [present,if_neg (by decide +kernel),present,if_neg (by decide +kernel)] at read
  refine Eq.trans (congrArg parse ?_) read
  decide +kernel

end Key
end ConfTree
