import ConfTree.Key
import ConfTree.Proofs.Keys.Pattern

/-!
# The pattern of a raw key

The parts of a raw key are the groups of one pattern (`Key.pattern`), in which white space can be taken by a repetition of
its own or by the declaration beside it. Matching it by trying gives the parts that splitting at the first two colons gives
(`Key.split?_eq_groups?`).
-/
namespace ConfTree.Key

open Pattern

/-! ## White space -/

section Blanks

variable {u : CodeUnit} {us kept rest : List CodeUnit}

theorem isNoColon_iff : isNoColon u = true ↔ u ≠ CodeUnit.ofChar ':' := by simp [isNoColon]

theorem isNoColon_of_isBlank (blank : u.isBlank = true) : isNoColon u = true := by
  rw [isNoColon_iff]
  rintro rfl
  exact absurd blank (by decide)

theorem not_isBlank_of_inName (inside : u.inName = true) : u.isBlank = false := by
  simp only [CodeUnit.inName,CodeUnit.isDigit,CodeUnit.startsName,CodeUnit.isLetter,CodeUnit.isBlank,Bool.or_eq_true,
    Bool.and_eq_true,decide_eq_true_eq,beq_iff_eq,UInt16.le_iff_toNat_le,← UInt16.toNat_inj,Bool.or_eq_false_iff,
    Bool.and_eq_false_iff,decide_eq_false_iff_not,beq_eq_false_iff_ne,ne_eq,UInt16.reduceToNat] at *
  omega

theorem isNoColon_of_inName (inside : u.inName = true) : isNoColon u = true := by
  rw [isNoColon_iff]
  rintro rfl
  exact absurd inside (by decide)

/-- The list without the blanks at its end. -/
def dropEnd (us : List CodeUnit) : List CodeUnit := us.rdropWhile CodeUnit.isBlank

theorem dropEnd_blank (blank : ∀ u ∈ rest, u.isBlank = true) : dropEnd (us ++ rest) = dropEnd us := by
  rw [dropEnd,List.rdropWhile,List.reverse_append,List.dropWhile_append_of_pos (by simpa using blank)]
  rfl

theorem dropEnd_append (apart : dropEnd rest ≠ []) : dropEnd (us ++ rest) = us ++ dropEnd rest := by
  have some_left : rest.reverse.dropWhile CodeUnit.isBlank ≠ [] := fun nothing => apart (by rw [dropEnd,List.rdropWhile,nothing]; rfl)
  rw [dropEnd,List.rdropWhile,List.reverse_append,List.dropWhile_append,if_neg (by simpa using some_left),List.reverse_append,
    List.reverse_reverse]
  rfl

/-- The blanks at the end of a list. -/
theorem exists_dropEnd (us : List CodeUnit) : ∃ tail, us = dropEnd us ++ tail ∧ ∀ u ∈ tail, u.isBlank = true :=
  ⟨us.rtakeWhile CodeUnit.isBlank,List.rdropWhile_append_rtakeWhile.symm,fun _ => List.mem_rtakeWhile_imp⟩

/-- What is left of a list at its end is no blank. -/
theorem exists_of_suffix {s : List CodeUnit} (apart : s ≠ []) (ends : s <:+ dropEnd us) : ∃ u ∈ s, u.isBlank = false := by
  obtain ⟨front,whole⟩ := ends
  have kept : dropEnd us ≠ [] := fun nothing => apart (List.append_eq_nil_iff.mp (whole.trans nothing)).2
  refine ⟨s.getLast apart,List.getLast_mem apart,?_⟩
  have last := List.rdropWhile_last_not CodeUnit.isBlank us kept
  have same : (dropEnd us).getLast kept = s.getLast apart := by
    rw [List.getLast_congr kept (by simp [apart]) whole.symm,List.getLast_append_right apart]
  rw [← same]
  exact Bool.eq_false_iff.mpr last

theorem skipBlanks_append (blank : ∀ u ∈ us, u.isBlank = true) : Text.skipBlanks (us ++ rest) = Text.skipBlanks rest :=
  List.dropWhile_append_of_pos blank

theorem skipBlanks_cons_of_not (solid : u.isBlank = false) : Text.skipBlanks (u :: us) = u :: us :=
  List.dropWhile_cons_of_neg (by simp [solid])

theorem solid_of_skipBlanks (skipped : Text.skipBlanks us = u :: rest) : u.isBlank = false := by
  have front := List.head_dropWhile_not CodeUnit.isBlank (l := us) (by rw [show us.dropWhile CodeUnit.isBlank = u :: rest from skipped]; nofun)
  simpa [show us.dropWhile CodeUnit.isBlank = u :: rest from skipped] using front

/-- A list that is not all blank begins, blanks dropped, with one of its units that is no blank. -/
theorem skipBlanks_eq_cons (solid : u ∈ us) (is_solid : u.isBlank = false) (rest : List CodeUnit) :
    ∃ v w, v ∈ us ∧ v.isBlank = false ∧ Text.skipBlanks (us ++ rest) = v :: w := by
  induction us with
  | nil => cases solid
  | cons x us ih =>
    by_cases blank : x.isBlank = true
    · have later : u ∈ us := (List.mem_cons.mp solid).resolve_left fun same => by simp [← same,is_solid] at blank
      obtain ⟨v,w,member,front,skipped⟩ := ih later
      exact ⟨v,w,List.mem_cons_of_mem _ member,front,(List.dropWhile_cons_of_pos blank).trans skipped⟩
    · exact ⟨x,us ++ rest,List.mem_cons_self,by simpa using blank,skipBlanks_cons_of_not (by simpa using blank)⟩

end Blanks

/-! ## The pattern -/

def blanks : Pattern := many CodeUnit.isBlank true

def colon : Pattern := one (!isNoColon ·)

/-- A name, kept as the first group. -/
def namePart : Pattern := group 1 (.followed (one CodeUnit.startsName) (many CodeUnit.inName true))

/-- What the second colon sets off, as little as can be; it is kept as the third group and stands on one line. -/
def modifiersPart : Pattern := .followed colon (.followed blanks (group 3 (many (!·.endsLine) false)))

/-- What the first colon sets off, as little as can be; it is kept as the second group. -/
def typesPart : Pattern :=
  .followed colon (.followed blanks (.followed (group 2 (many isNoColon false)) (.followed blanks (optional modifiersPart))))

/-- A raw key. -/
def pattern : Pattern := .followed blanks (.followed namePart (.followed blanks (.followed (optional typesPart) blanks)))

/-- The parts that the groups of the pattern are; a group that took no part is empty. -/
def partsOf (groups : Groups) : Parts :=
  ⟨(groups.lookup 1).getD .empty,(groups.lookup 2).getD .empty,(groups.lookup 3).getD .empty⟩

section Matching

variable {u : CodeUnit} {us t r : List CodeUnit} {groups : Groups}

/-- What is left at the end of a key: nothing but white space. -/
def closing (groups : Groups) : List CodeUnit → Option Groups :=
  blanks.matchThen groups fun groups rest => if rest.isEmpty then some groups else none

/-- What an optional part and white space after it leave of a key that goes on with no blank. -/
def closingAfter (part : Pattern) (groups : Groups) (us : List CodeUnit) : Option Groups :=
  if us = [] then some groups else part.matchThen groups closing us

theorem closing_eq (groups : Groups) (us : List CodeUnit) : closing groups us = if us.all CodeUnit.isBlank then some groups else none := by
  have all : (us.dropWhile CodeUnit.isBlank).isEmpty = us.all CodeUnit.isBlank := by
    rw [Bool.eq_iff_iff,List.isEmpty_iff,List.dropWhile_eq_nil_iff,List.all_eq_true]
  show repeatThen CodeUnit.isBlank true (fun rest => if rest.isEmpty then some groups else none) us = _
  rw [repeatThen_firm _ _ (by simp),all]

theorem closing_none (solid : u ∈ us) (is_solid : u.isBlank = false) : closing groups us = none := by
  rw [closing_eq,if_neg]
  intro all
  rw [List.all_eq_true.mp all u solid] at is_solid
  cases is_solid

/-- A part that only a colon begins. -/
structure IsSetOff (part : Pattern) : Prop where
  nil : ∀ groups, part.matchThen groups closing [] = none
  cons : ∀ groups u us, isNoColon u = true → part.matchThen groups closing (u :: us) = none

theorem isSetOff_colon (rest : Pattern) : IsSetOff (.followed colon rest) where
  nil _ := rfl
  cons groups u us other := by simp [matchThen,colon,other]

/-- White space before a part that is set off, or before the end, is all taken by the repetition that stands for it. -/
theorem blanks_optional {part : Pattern} (apart : IsSetOff part) (groups : Groups) (us : List CodeUnit) :
    repeatThen CodeUnit.isBlank true (fun us => part.matchThen groups closing us <|> closing groups us) us =
      closingAfter part groups (Text.skipBlanks us) := by
  have value (rest : List CodeUnit) : (part.matchThen groups closing (Text.skipBlanks rest) <|> closing groups (Text.skipBlanks rest)) =
      closingAfter part groups (Text.skipBlanks rest) := by
    rcases skipped : Text.skipBlanks rest with _ | ⟨v,w⟩
    · rw [apart.nil,closing_eq]
      rfl
    · rw [closingAfter,if_neg nofun,closing_none List.mem_cons_self (solid_of_skipBlanks skipped)]
      cases part.matchThen groups closing (v :: w) <;> rfl
  refine (repeatThen_most fun failed run rest cut blank => ?_).trans (value us)
  have same : Text.skipBlanks us = Text.skipBlanks rest := by rw [cut,skipBlanks_append blank]
  have failed : closingAfter part groups (Text.skipBlanks rest) = none := by
    rw [← same,← value us]
    exact failed
  rcases skipped : Text.skipBlanks rest with _ | ⟨v,w⟩
  · rw [skipped,closingAfter,if_pos rfl] at failed
    cases failed
  · -- Something solid comes later, so that a blank here begins neither the part nor the end.
    have solid := solid_of_skipBlanks skipped
    have later : v ∈ rest := (List.dropWhile_sublist CodeUnit.isBlank).subset (skipped ▸ List.mem_cons_self : v ∈ Text.skipBlanks rest)
    rw [closing_none later solid]
    cases rest with
    | nil => cases later
    | cons u rest =>
      by_cases blank : u.isBlank = true
      · rw [apart.cons groups u rest (isNoColon_of_isBlank blank)]
        rfl
      · rw [skipBlanks_cons_of_not (by simpa using blank)] at failed
        rw [closingAfter,if_neg nofun] at failed
        rw [failed]
        rfl

theorem take_of_append {kept rest : List CodeUnit} (cut : us = kept ++ rest) : us.take (us.length - rest.length) = kept := by
  simp [cut]

/-- The third group takes what is there but for the white space at its end, if that is on one line. -/
theorem modifiersGroup_eq (groups : Groups) (us : List CodeUnit) :
    (group 3 (many (!·.endsLine) false)).matchThen groups closing us =
      if (dropEnd us).any CodeUnit.endsLine then none else some ((3,⟨dropEnd us⟩) :: groups) := by
  show repeatThen _ false (fun rest => closing ((3,⟨us.take (us.length - rest.length)⟩) :: groups) rest) us = _
  obtain ⟨tail,cut,blank⟩ := exists_dropEnd us
  split
  · next broken =>
    -- The line ends before something solid, so the group stops short of that.
    obtain ⟨u,member,ends⟩ := List.any_eq_true.mp broken
    refine repeatThen_none fun run rest split inside => ?_
    have not_blank : ¬ rest.all CodeUnit.isBlank = true := fun all => by
      have kept : dropEnd us = dropEnd run := by rw [split,dropEnd_blank (List.all_eq_true.mp all)]
      have within := inside u ((List.rdropWhile_prefix _ _).subset (kept ▸ member))
      simp [ends] at within
    rw [closing_eq,if_neg not_blank]
  · next whole =>
    have inside : ∀ u ∈ dropEnd us, (!u.endsLine) = true := by simpa using whole
    have matched : closing ((3,⟨us.take (us.length - tail.length)⟩) :: groups) tail = some ((3,⟨dropEnd us⟩) :: groups) := by
      rw [closing_eq,if_pos (List.all_eq_true.mpr blank),take_of_append cut]
    have least := repeatThen_least (fun rest => closing ((3,⟨us.take (us.length - rest.length)⟩) :: groups) rest) inside
      (fun s apart ends => by
        obtain ⟨u,member,solid⟩ := exists_of_suffix apart ends
        exact closing_none (List.mem_append_left _ member) solid) matched
    rwa [← cut] at least

/-- What follows the second colon. -/
theorem modifiersPart_eq (groups : Groups) (us : List CodeUnit) : modifiersPart.matchThen groups closing (CodeUnit.ofChar ':' :: us) =
    if (Text.trim ⟨us⟩).units.any CodeUnit.endsLine then none else some ((3,Text.trim ⟨us⟩) :: groups) := by
  show repeatThen CodeUnit.isBlank true ((group 3 (many (!·.endsLine) false)).matchThen groups closing) us = _
  refine (repeatThen_most fun failed run rest cut blank => ?_).trans (modifiersGroup_eq groups _)
  rw [modifiersGroup_eq] at failed ⊢
  have same : Text.skipBlanks us = Text.skipBlanks rest := by rw [cut,skipBlanks_append blank]
  have broken : (dropEnd (Text.skipBlanks rest)).any CodeUnit.endsLine = true := by
    by_contra whole
    rw [← same] at whole
    cases (if_neg whole).symm.trans failed
  -- Blanks in front only add to what the group would have to take.
  have front : rest = rest.takeWhile CodeUnit.isBlank ++ Text.skipBlanks rest := List.takeWhile_append_dropWhile.symm
  have more : dropEnd rest = rest.takeWhile CodeUnit.isBlank ++ dropEnd (Text.skipBlanks rest) := by
    conv_lhs => rw [front]
    exact dropEnd_append fun nothing => by simp [nothing] at broken
  rw [if_pos (by rw [more,List.any_append,broken,Bool.or_true])]

/-- The rest of a key after its types. -/
theorem closingAfter_modifiers (groups : Groups) (us : List CodeUnit) (begins : us.head?.all (!isNoColon ·)) :
    closingAfter modifiersPart groups us =
      if (Text.trim ⟨us.drop 1⟩).units.any CodeUnit.endsLine then none
      else some (if us = [] then groups else (3,Text.trim ⟨us.drop 1⟩) :: groups) := by
  cases us with
  | nil => rfl
  | cons u us =>
    obtain rfl : u = CodeUnit.ofChar ':' := by simpa [isNoColon] using begins
    rw [closingAfter,if_neg (List.cons_ne_nil _ _),if_neg (List.cons_ne_nil _ _)]
    exact modifiersPart_eq groups us

theorem closingAfter_none {others : Groups} (begins : us.head?.all (!isNoColon ·)) (failed : closingAfter modifiersPart groups us = none) :
    closingAfter modifiersPart others us = none := by
  rw [closingAfter_modifiers _ _ begins] at failed ⊢
  split at failed
  · next broken => rw [if_pos broken]
  · cases failed

theorem closingAfter_cons (other : isNoColon u = true) : closingAfter modifiersPart groups (u :: us) = none := by
  rw [closingAfter,if_neg (List.cons_ne_nil _ _)]
  exact (isSetOff_colon _).cons groups u us other

theorem head_dropWhile_isNoColon (us : List CodeUnit) : (us.dropWhile isNoColon).head?.all (!isNoColon ·) := by
  rcases rest : us.dropWhile isNoColon with _ | ⟨u,w⟩
  · rfl
  · have front := List.head_dropWhile_not isNoColon (l := us) (by rw [rest]; nofun)
    simpa [rest] using front

theorem skipBlanks_of_begins (begins : us.head?.all (!isNoColon ·)) : Text.skipBlanks us = us := by
  cases us with
  | nil => rfl
  | cons u us =>
    obtain rfl : u = CodeUnit.ofChar ':' := by simpa [isNoColon] using begins
    exact skipBlanks_cons_of_not (by decide)

/-- What is solid before the next colon begins neither the modifiers nor the end. -/
theorem closingAfter_solid {s : List CodeUnit} (inside : ∀ u ∈ s, isNoColon u = true) (solid : ∃ u ∈ s, u.isBlank = false)
    (rest : List CodeUnit) : closingAfter modifiersPart groups (Text.skipBlanks (s ++ rest)) = none := by
  obtain ⟨u,member,solid⟩ := solid
  obtain ⟨v,w,within,_,skipped⟩ := skipBlanks_eq_cons member solid rest
  rw [skipped]
  exact closingAfter_cons (inside v within)

/-- The second group takes what stands before the next colon but for the white space at its end. -/
theorem typesGroup_eq (groups : Groups) (us : List CodeUnit) :
    (group 2 (many isNoColon false)).matchThen groups (fun groups rest => closingAfter modifiersPart groups (Text.skipBlanks rest)) us =
      closingAfter modifiersPart ((2,⟨dropEnd (us.takeWhile isNoColon)⟩) :: groups) (us.dropWhile isNoColon) := by
  show repeatThen isNoColon false
    (fun rest => closingAfter modifiersPart ((2,⟨us.take (us.length - rest.length)⟩) :: groups) (Text.skipBlanks rest)) us = _
  have begins := head_dropWhile_isNoColon us
  have stops := skipBlanks_of_begins begins
  rcases outcome : closingAfter modifiersPart ((2,⟨dropEnd (us.takeWhile isNoColon)⟩) :: groups) (us.dropWhile isNoColon) with _ | v
  · refine repeatThen_none fun run rest cut inside => ?_
    have same : us.dropWhile isNoColon = rest.dropWhile isNoColon := by rw [cut,List.dropWhile_append_of_pos inside]
    rw [← List.takeWhile_append_dropWhile (p := isNoColon) (l := rest),← same]
    by_cases blank : ∀ u ∈ rest.takeWhile isNoColon, u.isBlank = true
    · rw [skipBlanks_append blank,stops]
      exact closingAfter_none begins outcome
    · exact closingAfter_solid (fun u => List.mem_takeWhile_imp) (by simpa using blank) _
  · obtain ⟨tail,ended,blank⟩ := exists_dropEnd (us.takeWhile isNoColon)
    have cut : us = dropEnd (us.takeWhile isNoColon) ++ (tail ++ us.dropWhile isNoColon) := by
      rw [← List.append_assoc,← ended,List.takeWhile_append_dropWhile]
    have inside : ∀ u ∈ dropEnd (us.takeWhile isNoColon), isNoColon u = true := fun u member =>
      List.mem_takeWhile_imp ((List.rdropWhile_prefix _ _).subset member)
    have matched : closingAfter modifiersPart ((2,⟨us.take (us.length - (tail ++ us.dropWhile isNoColon).length)⟩) :: groups)
        (Text.skipBlanks (tail ++ us.dropWhile isNoColon)) = some v := by
      rw [take_of_append cut,skipBlanks_append blank,stops,outcome]
    have least := repeatThen_least
      (fun rest => closingAfter modifiersPart ((2,⟨us.take (us.length - rest.length)⟩) :: groups) (Text.skipBlanks rest)) inside
      (fun s apart ends => closingAfter_solid (fun u member => inside u (ends.subset member)) (exists_of_suffix apart ends) _) matched
    rwa [← cut] at least

theorem takeWhile_skipBlanks (us : List CodeUnit) :
    (Text.skipBlanks us).takeWhile isNoColon = Text.skipBlanks (us.takeWhile isNoColon) := by
  induction us with
  | nil => rfl
  | cons u us ih =>
    by_cases blank : u.isBlank = true
    · rw [Text.skipBlanks,List.dropWhile_cons_of_pos blank,List.takeWhile_cons_of_pos (isNoColon_of_isBlank blank),Text.skipBlanks,
        List.dropWhile_cons_of_pos blank]
      exact ih
    · have solid : u.isBlank = false := by simpa using blank
      rw [skipBlanks_cons_of_not solid]
      by_cases inside : isNoColon u = true
      · rw [List.takeWhile_cons_of_pos inside,skipBlanks_cons_of_not solid]
      · rw [List.takeWhile_cons_of_neg inside]
        rfl

theorem dropWhile_of_blank {run rest : List CodeUnit} (blank : ∀ u ∈ run, u.isBlank = true) :
    (run ++ rest).dropWhile isNoColon = rest.dropWhile isNoColon :=
  List.dropWhile_append_of_pos fun u member => isNoColon_of_isBlank (blank u member)

/-- What follows the first colon. -/
theorem typesPart_eq (groups : Groups) (us : List CodeUnit) : typesPart.matchThen groups closing (CodeUnit.ofChar ':' :: us) =
    closingAfter modifiersPart ((2,Text.trim ⟨us.takeWhile isNoColon⟩) :: groups) (us.dropWhile isNoColon) := by
  have after (groups : Groups) : (Pattern.followed blanks (optional modifiersPart)).matchThen groups closing =
      fun rest => closingAfter modifiersPart groups (Text.skipBlanks rest) :=
    funext fun rest => blanks_optional (isSetOff_colon _) groups rest
  show repeatThen CodeUnit.isBlank true ((group 2 (many isNoColon false)).matchThen groups
    fun groups => (Pattern.followed blanks (optional modifiersPart)).matchThen groups closing) us = _
  simp only [after]
  have front : (Text.skipBlanks us).dropWhile isNoColon = us.dropWhile isNoColon := by
    conv_rhs => rw [← List.takeWhile_append_dropWhile (p := CodeUnit.isBlank) (l := us)]
    exact (dropWhile_of_blank fun u => List.mem_takeWhile_imp).symm
  refine (repeatThen_most fun failed run rest cut blank => ?_).trans ?_
  · rw [typesGroup_eq] at failed ⊢
    have same : (us.dropWhile CodeUnit.isBlank).dropWhile isNoColon = rest.dropWhile isNoColon := by
      rw [show (us.dropWhile CodeUnit.isBlank).dropWhile isNoColon = us.dropWhile isNoColon from front,cut,dropWhile_of_blank blank]
    rw [same] at failed
    exact closingAfter_none (head_dropWhile_isNoColon rest) failed
  · rw [typesGroup_eq,show us.dropWhile CodeUnit.isBlank = Text.skipBlanks us from rfl,front,takeWhile_skipBlanks]
    rfl

/-- What is split off after a name and white space: nothing more, or what one colon sets off, or two. -/
def partsAfter (name : Text) : List CodeUnit → Option Parts
  | [] => some ⟨name,.empty,.empty⟩
  | u :: declared =>
    if isNoColon u then none
    else if (Text.trim ⟨(declared.dropWhile isNoColon).drop 1⟩).units.any CodeUnit.endsLine then none
    else some ⟨name,Text.trim ⟨declared.takeWhile isNoColon⟩,Text.trim ⟨(declared.dropWhile isNoColon).drop 1⟩⟩

theorem split?_eq (raw : Text) : split? raw =
    if (Text.skipBlanks raw.units).head?.any CodeUnit.startsName then
      partsAfter ⟨(Text.skipBlanks raw.units).takeWhile CodeUnit.inName⟩
        (Text.skipBlanks ((Text.skipBlanks raw.units).dropWhile CodeUnit.inName))
    else none := by
  unfold split?
  by_cases starts : (Text.skipBlanks raw.units).head?.any CodeUnit.startsName = true
  · rw [if_pos starts]
    simp only [starts,Bool.not_true,Bool.false_eq_true,if_false]
    cases Text.skipBlanks ((Text.skipBlanks raw.units).dropWhile CodeUnit.inName) <;> rfl
  · rw [if_neg starts]
    simp only [Bool.not_eq_true] at starts
    simp [starts]

/-- The rest of a key after its name. -/
theorem closingAfter_types (name : Text) (us : List CodeUnit) :
    (closingAfter typesPart [(1,name)] us).map partsOf = partsAfter name us := by
  rcases us with _ | ⟨u,declared⟩
  · rfl
  · rw [closingAfter,if_neg (List.cons_ne_nil _ _)]
    by_cases other : isNoColon u = true
    · have refused : typesPart.matchThen [(1,name)] closing (u :: declared) = none := (isSetOff_colon _).cons _ u declared other
      simp [refused,partsAfter,other]
    · obtain rfl : u = CodeUnit.ofChar ':' := by simpa [isNoColon] using other
      rw [typesPart_eq,closingAfter_modifiers _ _ (head_dropWhile_isNoColon _)]
      simp only [partsAfter,if_neg other]
      split
      · rfl
      · by_cases last : declared.dropWhile isNoColon = []
        · rw [if_pos last,last]
          rfl
        · rw [if_neg last]
          rfl

/-- The groups of the pattern are the parts that splitting gives. -/
theorem split?_eq_groups? (raw : Text) : split? raw = (pattern.groups? raw).map partsOf := by
  have after (groups : Groups) : (Pattern.followed blanks (.followed (optional typesPart) blanks)).matchThen groups
      (fun groups rest => if rest.isEmpty then some groups else none) =
        fun rest => closingAfter typesPart groups (Text.skipBlanks rest) :=
    funext fun rest => blanks_optional (isSetOff_colon _) groups rest
  have start : pattern.groups? raw = namePart.matchThen [] (fun groups rest => closingAfter typesPart groups (Text.skipBlanks rest))
      (Text.skipBlanks raw.units) := by
    show repeatThen CodeUnit.isBlank true (namePart.matchThen [] fun groups =>
      (Pattern.followed blanks (.followed (optional typesPart) blanks)).matchThen groups _) raw.units = _
    simp only [after]
    refine repeatThen_firm _ _ fun u rest blank => ?_
    have starts : u.startsName = false := by
      by_contra starts
      rw [not_isBlank_of_inName (by simp_all [CodeUnit.inName])] at blank
      cases blank
    simp [namePart,matchThen,starts]
  rw [start,split?_eq]
  rcases skipped : Text.skipBlanks raw.units with _ | ⟨u,rest⟩
  · rfl
  by_cases starts : u.startsName = true
  · have inside : u.inName = true := by simp [CodeUnit.inName,starts]
    have name : namePart.matchThen [] (fun groups rest => closingAfter typesPart groups (Text.skipBlanks rest)) (u :: rest) =
        closingAfter typesPart [(1,⟨(u :: rest).takeWhile CodeUnit.inName⟩)] (Text.skipBlanks ((u :: rest).dropWhile CodeUnit.inName)) := by
      have taken : (u :: rest).take ((u :: rest).length - (rest.dropWhile CodeUnit.inName).length) = u :: rest.takeWhile CodeUnit.inName :=
        take_of_append (by rw [List.cons_append,List.takeWhile_append_dropWhile])
      have most := repeatThen_firm
        (fun w => closingAfter typesPart [(1,⟨(u :: rest).take ((u :: rest).length - w.length)⟩)] (Text.skipBlanks w)) rest
        fun v w (inside : v.inName = true) => by
          rw [skipBlanks_cons_of_not (not_isBlank_of_inName inside),closingAfter,if_neg (List.cons_ne_nil _ _)]
          exact (isSetOff_colon _).cons _ v w (isNoColon_of_inName inside)
      rw [List.takeWhile_cons_of_pos inside,List.dropWhile_cons_of_pos inside,← taken]
      refine Eq.trans ?_ most
      simp [namePart,matchThen,starts]
    rw [name,closingAfter_types,if_pos (by simpa using starts)]
  · simp [namePart,matchThen,starts]

end Matching

end ConfTree.Key
