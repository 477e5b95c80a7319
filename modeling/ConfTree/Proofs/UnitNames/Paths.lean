import Mathlib.Data.List.ModifyLast
import ConfTree.Files.Units

/-!
# Units below their directory

A path that was resolved has plain segments only, and it is resolved to itself when it is written out (`Path.resolve_text`). A
valid name of a unit has plain segments too, so it leads from such a path downward, segment by segment, also with an extension at
its end. The candidates of a unit therefore lie strictly below the directory of the units (`UnitDirectory.candidates_below`).
-/
namespace ConfTree

/-! ## Segments and extensions -/

namespace Text

variable {separator : CodeUnit} {t x e : Text}

/-- What is written behind joined pieces is written behind the last one. -/
theorem join_append_last (separator : Text) (pieces : List Text) (x e : Text) :
    join separator (pieces ++ [x]) ++ e = join separator (pieces ++ [x ++ e]) := by
  have along : List.intercalate separator.units ((pieces ++ [x]).map units) ++ e.units =
      List.intercalate separator.units ((pieces ++ [x ++ e]).map units) := by
    induction pieces with
    | nil =>
      simp only [List.nil_append,List.map_singleton,List.intercalate_singleton]
      rfl
    | cons first rest ih =>
      have further (y : Text) : (rest ++ [y]).map units ≠ [] := by simp
      rw [List.cons_append,List.map_cons,List.intercalate_cons_of_ne_nil (further x),List.append_assoc,List.append_assoc,ih,
        List.cons_append,List.map_cons,List.intercalate_cons_of_ne_nil (further (x ++ e)),List.append_assoc]
  exact congrArg Text.mk along

theorem append_empty (t : Text) : t ++ empty = t := congrArg Text.mk (List.append_nil t.units)

end Text

namespace Path

variable {p directory : Path} {segment e : Text} {segments : List Text}

/-- A segment that leads downward: it is filled, in one piece, and neither `.` nor `..`. -/
structure IsPlain (segment : Text) : Prop where
  filled : segment.isEmpty = false
  whole : CodeUnit.ofChar '/' ∉ segment.units
  stays : segment ≠ "."
  upward : segment ≠ ".."

/-- All segments lead downward. -/
def AllPlain (p : Path) : Prop := ∀ segment ∈ p.segments, IsPlain segment

theorem root_allPlain : root.AllPlain := nofun

theorem step_plain (plain : IsPlain segment) : p.step segment = ⟨p.segments ++ [segment]⟩ := by
  simp [step,plain.filled,plain.stays,plain.upward]

theorem steps_plain (plain : ∀ segment ∈ segments, IsPlain segment) : segments.foldl step p = ⟨p.segments ++ segments⟩ := by
  induction segments generalizing p with
  | nil => simp
  | cons segment rest ih =>
    obtain ⟨first,later⟩ := List.forall_mem_cons.mp plain
    rw [List.foldl_cons,step_plain first,ih later,List.append_assoc]
    rfl

theorem AllPlain.step (plain : p.AllPlain) (whole : CodeUnit.ofChar '/' ∉ segment.units) : (p.step segment).AllPlain := by
  rw [Path.step]
  split
  · exact plain
  · next moves =>
    split
    · exact fun other member => plain other (List.dropLast_subset _ member)
    · next upward =>
      have filled : segment.isEmpty = false := by simp_all
      have stays : segment ≠ "." := by simp_all
      intro other member
      rcases List.mem_append.mp member with above | last
      · exact plain other above
      · obtain rfl := List.mem_singleton.mp last
        exact ⟨filled,whole,stays,upward⟩

/-- What is resolved from a directory that was resolved has plain segments. -/
theorem AllPlain.resolve (plain : directory.AllPlain) (written : Text) : (directory.resolve written).AllPlain := by
  have along (segments : List Text) (whole : ∀ segment ∈ segments, CodeUnit.ofChar '/' ∉ segment.units) :
      ∀ p : Path, p.AllPlain → (segments.foldl Path.step p).AllPlain := by
    induction segments with
    | nil => exact fun _ plain => plain
    | cons segment rest ih =>
      obtain ⟨first,later⟩ := List.forall_mem_cons.mp whole
      exact fun p plain => ih later _ (plain.step first)
  refine along _ (fun _ => Text.not_mem_of_mem_splitOn) _ ?_
  split
  · exact root_allPlain
  · exact plain

/-- A path is resolved to itself when it is written out. -/
theorem resolve_text (plain : p.AllPlain) : root.resolve p.text = p := by
  have written : p.text = ⟨[] ++ CodeUnit.ofChar '/' :: (Text.join "/" p.segments).units⟩ := rfl
  have pieces : p.text.splitOn '/' = .empty :: (Text.join "/" p.segments).splitOn '/' := by
    rw [written,Text.splitOn_append_cons]
    rfl
  rw [resolve,pieces,ite_self,List.foldl_cons,step,if_pos (by decide)]
  obtain ⟨segments⟩ := p
  cases segments with
  | nil => decide
  | cons first rest =>
    have separator : ("/" : Text) = ⟨[CodeUnit.ofChar '/']⟩ := by decide
    rw [separator,Text.splitOn_join (fun segment member => (plain segment member).whole) nofun,steps_plain plain]
    rfl

/-- A plain segment stays so with an extension. -/
theorem IsPlain.append (plain : IsPlain segment) (whole : CodeUnit.ofChar '/' ∉ e.units) : IsPlain (segment ++ e) := by
  obtain ⟨us⟩ := segment
  cases us with
  | nil => cases plain.filled
  | cons u us =>
    refine ⟨rfl,fun among => (List.mem_append.mp among).elim plain.whole whole,fun same => ?_,fun same => ?_⟩
    · have units : u :: (us ++ e.units) = [CodeUnit.ofChar '.'] := congrArg Text.units same
      obtain ⟨rfl,rest⟩ := List.cons.inj units
      obtain ⟨rfl,_⟩ := List.append_eq_nil_iff.mp rest
      exact plain.stays rfl
    · have units : u :: (us ++ e.units) = [CodeUnit.ofChar '.',CodeUnit.ofChar '.'] := congrArg Text.units same
      obtain ⟨rfl,rest⟩ := List.cons.inj units
      rcases List.append_eq_singleton_iff.mp rest with ⟨rfl,_⟩ | ⟨rfl,_⟩
      · exact plain.stays rfl
      · exact plain.upward rfl

end Path

/-! ## Names -/

namespace UnitName

variable {u segment : Text}

/-- What is wrong with a text that is no name of a unit. -/
inductive IsMalformed (u : Text) : Prop
  | absolute (starts : u.startsWith "/" = true)
  | empty (nothing : u.isEmpty = true)
  | segment {segment : Text} (among : segment ∈ u.splitOn '/') (leads : segment.isEmpty = true ∨ segment = "." ∨ segment = "..")
  | unit {x : CodeUnit} (among : x ∈ u.units) (other : isPart x = false) (apart : x ≠ CodeUnit.ofChar '/')

theorem isSegment_iff : isSegment segment = true ↔
    segment.isEmpty = false ∧ (∀ x ∈ segment.units, isPart x = true) ∧ segment ≠ "." ∧ segment ≠ ".." := by
  simp [isSegment,and_assoc]

theorem isPlain_of_isSegment (valid : isSegment segment = true) : Path.IsPlain segment := by
  obtain ⟨filled,parts,stays,upward⟩ := isSegment_iff.mp valid
  exact ⟨filled,fun slash => absurd (parts _ slash) (by decide),stays,upward⟩

/-- A text that starts with a slash has an empty segment first. -/
theorem empty_mem_of_startsWith (starts : u.startsWith "/" = true) : Text.empty ∈ u.splitOn '/' := by
  obtain ⟨rest,written⟩ := List.isPrefixOf_iff_prefix.mp starts
  obtain rfl : u = ⟨[] ++ CodeUnit.ofChar '/' :: rest⟩ := congrArg Text.mk written.symm
  rw [Text.splitOn_append_cons]
  exact List.mem_append_left _ List.mem_cons_self

/-- The texts that are no names of units are the malformed ones. -/
theorem isValid_iff : isValid u = true ↔ ¬ IsMalformed u := by
  have no_segment {segment : Text} (leads : segment.isEmpty = true ∨ segment = "." ∨ segment = "..") : ¬ isSegment segment = true :=
    fun valid => by
      obtain ⟨filled,_,stays,upward⟩ := isSegment_iff.mp valid
      rcases leads with nothing | here | above
      · simp [nothing] at filled
      · exact stays here
      · exact upward above
  rw [isValid,List.all_eq_true]
  constructor
  · intro segments malformed
    cases malformed with
    | absolute starts => exact no_segment (.inl rfl) (segments _ (empty_mem_of_startsWith starts))
    | empty nothing =>
      obtain rfl : u = .empty := congrArg Text.mk (List.isEmpty_iff.mp nothing)
      exact no_segment (.inl rfl) (segments _ List.mem_cons_self)
    | segment among leads => exact no_segment leads (segments _ among)
    | unit among other apart =>
      obtain ⟨segment,member,inside⟩ := (Text.mem_piece_iff apart).mpr among
      exact absurd ((isSegment_iff.mp (segments _ member)).2.1 _ inside) (by simp [other])
  · intro fine segment member
    refine isSegment_iff.mpr ⟨?_,fun x inside => ?_,fun here => ?_,fun above => ?_⟩
    · exact Bool.eq_false_iff.mpr fun nothing => fine (.segment member (.inl nothing))
    · have apart : x ≠ CodeUnit.ofChar '/' := fun same => Text.not_mem_of_mem_splitOn member (same ▸ inside)
      exact Bool.not_eq_false _ ▸ fun other => fine (.unit ((Text.mem_piece_iff apart).mp ⟨segment,member,inside⟩) other apart)
    · exact fine (.segment member (.inr (.inl here)))
    · exact fine (.segment member (.inr (.inr above)))

theorem startsWith_of_isValid (valid : isValid u = true) : u.startsWith "/" = false :=
  Bool.eq_false_iff.mpr fun starts => isValid_iff.mp valid (.absolute starts)

/-- The segments of a name are plain. -/
theorem segments_plain (valid : isValid u = true) : ∀ segment ∈ u.splitOn '/', Path.IsPlain segment := fun segment member =>
  isPlain_of_isSegment (List.all_eq_true.mp valid segment member)

theorem validate_malformed (malformed : IsMalformed u) : validate u = .error (.construction (.unitName u) none) :=
  if_neg fun valid => isValid_iff.mp valid malformed

end UnitName

/-! ## Candidates -/

namespace UnitDirectory

variable {d : UnitDirectory} {u c : Text} {cs : List Text}

/-- The place of a unit in a directory, for an extension that its name goes without. -/
def place (base : Path) (u e : Text) : Path := ⟨base.segments ++ (u.splitOn '/').modifyLast (· ++ e)⟩

/-- A unit has its place for its last segment. -/
theorem exists_last (u : Text) : ∃ above last, u.splitOn '/' = above ++ [last] :=
  ⟨_,_,(List.dropLast_concat_getLast (Text.splitOn_ne_nil _ u)).symm⟩

theorem place_isBelow (base : Path) (u e : Text) : (place base u e).isBelow base = true := by
  obtain ⟨above,last,cut⟩ := exists_last u
  simp [Path.isBelow,place,cut,List.modifyLast_concat]

theorem place_empty (base : Path) (u : Text) : place base u .empty = ⟨base.segments ++ u.splitOn '/'⟩ := by
  obtain ⟨above,last,cut⟩ := exists_last u
  rw [place,cut,List.modifyLast_concat,Text.append_empty]

/-- With an extension behind it, the path of a unit is that of another place below the directory. -/
theorem place_append (base : Path) (u e : Text) : (place base u .empty).text ++ e = (place base u e).text := by
  obtain ⟨above,last,cut⟩ := exists_last u
  rw [place_empty,place,cut,List.modifyLast_concat,← List.append_assoc,← List.append_assoc,Path.text,Path.text,
    ← Text.join_append_last]
  exact congrArg Text.mk (List.append_assoc _ _ _)

theorem place_allPlain {base : Path} {e : Text} (plain : base.AllPlain) (valid : UnitName.isValid u = true)
    (whole : CodeUnit.ofChar '/' ∉ e.units) : (place base u e).AllPlain := by
  obtain ⟨above,last,cut⟩ := exists_last u
  have segments := UnitName.segments_plain valid
  rw [cut] at segments
  intro segment member
  rw [place,cut,List.modifyLast_concat] at member
  simp only [List.mem_append,List.mem_singleton] at member segments
  rcases member with outer | inner | rfl
  · exact plain segment outer
  · exact segments segment (.inl inner)
  · exact (segments last (.inr rfl)).append whole

theorem resolve_name (valid : UnitName.isValid u = true) (base : Path) : base.resolve u = place base u .empty := by
  rw [Path.resolve,UnitName.startsWith_of_isValid valid,place_empty]
  exact Path.steps_plain (UnitName.segments_plain valid)

/-- Each candidate is the place of the unit in the directory, with at most one of the extensions. -/
theorem candidates_place (found : d.candidates u = .ok cs) (among : c ∈ cs) :
    UnitName.isValid u = true ∧ ∃ e, (e = .empty ∨ e ∈ d.extensions) ∧ c = (place d.base u e).text := by
  by_cases valid : UnitName.isValid u = true
  · refine ⟨valid,?_⟩
    have paths : d.candidates u = .ok (if d.extensions.contains (Path.extension u) then [(place d.base u .empty).text]
        else d.extensions.map fun e => (place d.base u e).text) := by
      rw [candidates,UnitName.validate,if_pos valid]
      show (if _ then _ else _) = _
      simp only [resolve_name valid,place_append]
      split <;> rfl
    obtain rfl := Except.ok.inj (found.symm.trans paths)
    split at among
    · exact ⟨.empty,.inl rfl,List.mem_singleton.mp among⟩
    · obtain ⟨e,known,rfl⟩ := List.mem_map.mp among
      exact ⟨e,.inr known,rfl⟩
  · rw [candidates,UnitName.validate,if_neg valid] at found
    cases found

/-- The candidates of a unit lie strictly below the directory, in its place there, with at most one of the extensions. -/
theorem candidates_below {directory written : Text} (base : d.base = (Path.root.resolve directory).resolve written)
    (whole : ∀ e ∈ d.extensions, CodeUnit.ofChar '/' ∉ e.units) (found : d.candidates u = .ok cs) (among : c ∈ cs) :
    ∃ e, (e = .empty ∨ e ∈ d.extensions) ∧ c = (place d.base u e).text ∧ Path.root.resolve c = place d.base u e ∧
      (Path.root.resolve c).isBelow d.base = true := by
  obtain ⟨valid,e,known,rfl⟩ := candidates_place found among
  have plain : d.base.AllPlain := by
    rw [base]
    exact (Path.root_allPlain.resolve directory).resolve written
  have slashless : CodeUnit.ofChar '/' ∉ e.units := by
    rcases known with rfl | known
    · exact List.not_mem_nil
    · exact whole e known
  have itself := Path.resolve_text (place_allPlain plain valid slashless)
  refine ⟨e,known,rfl,itself,?_⟩
  rw [itself]
  exact place_isBelow d.base u e

end UnitDirectory
end ConfTree
