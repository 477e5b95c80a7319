import ConfTree.Address

/-!
# The form of an address

An address is a run of points, or components with runs of points before, between and after them (`Reads`): exactly these texts are
read, and what is read are the steps of the runs and the components, one after another (`parse_iff`). The same steps come from the
tokens of the text, each as long as it can be (`Reads.tokens`). Where the pieces of two addresses meet at a run of points, their steps
meet at its ascent (`parse_append`).
-/
namespace ConfTree.Address

/-- A run of points. -/
def points (n : Nat) : List CodeUnit := List.replicate n '.'

/-- What may stand between points, and what it selects. -/
inductive Component : List CodeUnit → Selector → Prop
  | zero : Component ['0'] (.index (.ofNat 0))
  | decimal {u : CodeUnit} {us : List CodeUnit} (first : u.isDigit = true) (nonzero : u ≠ '0') (rest : ∀ v ∈ us, v.isDigit = true) :
      Component (u :: us) (.index (.ofNat (Number.valueOfDigits 10 (u :: us))))
  | name {u : CodeUnit} {us : List CodeUnit} (first : u.startsName = true) (rest : ∀ v ∈ us, v.inName = true) :
      Component (u :: us) (.key ⟨u :: us⟩)
  | starred {u : CodeUnit} {us : List CodeUnit} (first : u.startsName = true) (rest : ∀ v ∈ us, v.inName = true) :
      Component ('*' :: u :: us) (.key ⟨'*' :: u :: us⟩)

/-- The texts that are read, with their steps: a run of points, or a component after a run of at least so many points and before
what starts with a point, if there is more. -/
inductive Reads : Nat → List CodeUnit → List Step → Prop
  | points (least n : Nat) : Reads least (points n) (ascent n)
  | component {least n : Nat} {us rest : List CodeUnit} {selected : Selector} {steps : List Step} (apart : least ≤ n)
      (component : Component us selected) (follows : Reads 1 rest steps) :
      Reads least (Address.points n ++ us ++ rest) (ascent n ++ .select selected :: steps)

section Units

variable {u : CodeUnit} {us rest : List CodeUnit} {selected : Selector}

theorem inName_of_startsName (start : u.startsName = true) : u.inName = true := by simp [CodeUnit.inName,start]

theorem inName_of_isDigit (digit : u.isDigit = true) : u.inName = true := by simp [CodeUnit.inName,digit]

theorem ne_point_of_inName (inside : u.inName = true) : u ≠ '.' := by
  rintro rfl
  exact absurd inside (by decide)

theorem not_isDigit_of_startsName (start : u.startsName = true) : u.isDigit = false := by
  have range : 0x41 ≤ u.toNat := by
    simp [CodeUnit.startsName,CodeUnit.isLetter,UInt16.le_iff_toNat_le,← UInt16.toNat_inj] at start
    omega
  have above : ¬ u.toNat ≤ 0x39 := by omega
  simp [CodeUnit.isDigit,UInt16.le_iff_toNat_le,above]

theorem isIndex_cons : isIndex (u :: us) = (u.isDigit && (us.isEmpty || u != '0' && us.all CodeUnit.isDigit)) := by
  cases us with
  | nil => simp [isIndex]
  | cons v us => simp [isIndex,Bool.and_assoc]

/-- A text is a component just if it is found to be one, and it selects what it is found to select. -/
theorem component_iff : Component us selected ↔ isComponent us = true ∧ selected = selector ⟨us⟩ := by
  have key {u : CodeUnit} {us : List CodeUnit} (other : u.isDigit = false) : selector ⟨u :: us⟩ = .key ⟨u :: us⟩ := by
    rw [selector,if_neg]
    simp [isIndex_cons,other]
  constructor
  · intro component
    cases component with
    | zero => exact ⟨rfl,rfl⟩
    | @decimal u us first nonzero rest =>
      have index : isIndex (u :: us) = true := by
        simp only [isIndex_cons,first,Bool.true_and,Bool.or_eq_true,Bool.and_eq_true,List.all_eq_true]
        exact .inr ⟨by simpa using nonzero,rest⟩
      exact ⟨by rw [isComponent,index]; rfl,by rw [selector,if_pos index]⟩
    | @name u us first rest =>
      have name : isName (u :: us) = true := by simpa [isName,first] using rest
      exact ⟨by simp [isComponent,name],(key (not_isDigit_of_startsName first)).symm⟩
    | @starred u us first rest =>
      have name : isName (u :: us) = true := by simpa [isName,first] using rest
      exact ⟨by simp [isComponent,name],(key (by decide)).symm⟩
  · rintro ⟨found,rfl⟩
    unfold isComponent at found
    rw [Bool.or_assoc,Bool.or_eq_true,Bool.or_eq_true] at found
    rcases found with index | name | starred
    · rw [selector,if_pos index]
      cases us with
      | nil => cases index
      | cons u us =>
        rw [isIndex_cons,Bool.and_eq_true,Bool.or_eq_true,Bool.and_eq_true,List.all_eq_true] at index
        obtain ⟨first,alone | ⟨nonzero,rest⟩⟩ := index
        · obtain rfl := List.isEmpty_iff.mp alone
          by_cases zero : u = '0'
          · rw [zero]
            exact .zero
          · exact .decimal first zero nofun
        · exact .decimal first (by simpa using nonzero) rest
    · cases us with
      | nil => cases name
      | cons u us =>
        rw [isName,Bool.and_eq_true,List.all_eq_true] at name
        rw [key (not_isDigit_of_startsName name.1)]
        exact .name name.1 name.2
    · match us with
      | [] | [_] => simp [isName] at starred
      | star :: u :: us =>
        rw [Bool.and_eq_true,beq_iff_eq,isName,Bool.and_eq_true,List.all_eq_true] at starred
        obtain ⟨rfl,first,rest⟩ := starred
        rw [key (by decide)]
        exact .starred first rest

/-- A component is not empty and has no point in it. -/
theorem Component.pointless (component : Component us selected) : us ≠ [] ∧ CodeUnit.ofChar '.' ∉ us := by
  have apart {us : List CodeUnit} (inside : ∀ v ∈ us, v.inName = true) : CodeUnit.ofChar '.' ∉ us :=
    fun member => ne_point_of_inName (inside _ member) rfl
  cases component with
  | zero => exact ⟨nofun,by decide⟩
  | decimal first nonzero rest =>
    exact ⟨nofun,apart (List.forall_mem_cons.mpr ⟨inName_of_isDigit first,fun v member => inName_of_isDigit (rest v member)⟩)⟩
  | name first rest => exact ⟨nofun,apart (List.forall_mem_cons.mpr ⟨inName_of_startsName first,rest⟩)⟩
  | starred first rest =>
    refine ⟨nofun,List.not_mem_cons_of_ne_of_not_mem (by decide) ?_⟩
    exact apart (List.forall_mem_cons.mpr ⟨inName_of_startsName first,rest⟩)

end Units

section Pieces

variable {a b p : Text} {us rest : List CodeUnit} {ps qs : List Text} {selected : Selector} {steps : List Step} {k n least : Nat}

theorem pieces_meet (us vs : List CodeUnit) : pieces ⟨us ++ CodeUnit.ofChar '.' :: vs⟩ = pieces ⟨us⟩ ++ pieces ⟨vs⟩ :=
  Text.splitOn_append_cons us vs

theorem pieces_pointless (pointless : CodeUnit.ofChar '.' ∉ us) : pieces ⟨us⟩ = [⟨us⟩] := Text.splitOn_whole pointless

theorem pieces_points (n : Nat) (us : List CodeUnit) : pieces ⟨points n ++ us⟩ = List.replicate n .empty ++ pieces ⟨us⟩ := by
  induction n with
  | zero => rfl
  | succ n ih =>
    show pieces ⟨[] ++ CodeUnit.ofChar '.' :: (points n ++ us)⟩ = _
    rw [pieces_meet,ih]
    rfl

theorem stepsFrom_points (k n : Nat) (ps : List Text) : stepsFrom k (List.replicate n .empty ++ ps) = stepsFrom (k + n) ps := by
  induction n generalizing k with
  | zero => rfl
  | succ n ih =>
    show stepsFrom (k + 1) (List.replicate n .empty ++ ps) = _
    rw [ih,Nat.add_assoc,Nat.add_comm 1 n]

theorem stepsFrom_component (component : Component us selected) (k : Nat) (ps : List Text) :
    stepsFrom k (⟨us⟩ :: ps) = ascent k ++ .select selected :: stepsFrom 1 ps := by
  have filled : Text.isEmpty ⟨us⟩ = false := by simpa [Text.isEmpty] using component.pointless.1
  rw [stepsFrom,if_neg (by simp [filled]),(component_iff.mp component).2]

theorem isWellFormed_iff : isWellFormed a = true ↔ ∀ p ∈ pieces a, p = .empty ∨ ∃ selected, Component p.units selected := by
  have each (p : Text) : (p.isEmpty || isComponent p.units) = true ↔ p = .empty ∨ ∃ selected, Component p.units selected := by
    rw [Bool.or_eq_true]
    refine or_congr ⟨fun empty => ?_,fun empty => empty ▸ rfl⟩ ?_
    · exact congrArg Text.mk (List.isEmpty_iff.mp empty)
    · exact ⟨fun found => ⟨_,component_iff.mpr ⟨found,rfl⟩⟩,fun ⟨_,component⟩ => (component_iff.mp component).1⟩
  simp only [isWellFormed,List.all_eq_true,each]

theorem parse_ok_iff : parse a = .ok steps ↔ isWellFormed a = true ∧ stepsFrom 0 (pieces a) = steps := by
  unfold parse
  split
  · next found => simp [found]
  · next other => simp [other]

/-! ## Reading -/

theorem Reads.next (reads : Reads 1 us steps) : us = [] ∨ ∃ rest, us = CodeUnit.ofChar '.' :: rest := by
  cases reads with
  | points _ n =>
    cases n with
    | zero => exact .inl rfl
    | succ n => exact .inr ⟨_,rfl⟩
  | @component _ n _ _ _ _ apart =>
    obtain ⟨m,rfl⟩ : ∃ m, n = m + 1 := ⟨n - 1,by omega⟩
    exact .inr ⟨_,rfl⟩

/-- What has the form of an address is read. -/
theorem Reads.parse (reads : Reads least us steps) : Address.parse ⟨us⟩ = .ok steps := by
  rw [parse_ok_iff,isWellFormed_iff]
  induction reads with
  | points least n =>
    have cut := pieces_points n []
    rw [List.append_nil] at cut
    rw [cut,stepsFrom_points]
    refine ⟨fun p member => .inl ?_,by rw [Nat.zero_add]; rfl⟩
    rcases List.mem_append.mp member with run | last
    · exact List.eq_of_mem_replicate run
    · exact List.mem_singleton.mp last
  | @component least n us rest selected steps _ component follows ih =>
    obtain ⟨fine,read⟩ := ih
    -- the piece before the first point of the rest is empty, and the component takes its place
    obtain ⟨ps,first,whole⟩ : ∃ ps, pieces ⟨rest⟩ = .empty :: ps ∧ pieces ⟨us ++ rest⟩ = ⟨us⟩ :: ps := by
      rcases follows.next with rfl | ⟨more,rfl⟩
      · exact ⟨[],rfl,by rw [List.append_nil,pieces_pointless component.pointless.2]⟩
      · exact ⟨pieces ⟨more⟩,pieces_meet [] more,by rw [pieces_meet,pieces_pointless component.pointless.2]; rfl⟩
    rw [first] at fine read
    rw [List.append_assoc,pieces_points,whole,stepsFrom_points,stepsFrom_component component,Nat.zero_add]
    refine ⟨fun p member => ?_,congrArg _ (congrArg _ read)⟩
    rcases List.mem_append.mp member with run | rest
    · exact .inl (List.eq_of_mem_replicate run)
    · rcases List.mem_cons.mp rest with rfl | later
      · exact .inr ⟨selected,component⟩
      · exact fine p (List.mem_cons_of_mem _ later)

/-- Pieces that are empty or components are read, points before the first and between them. -/
theorem reads_pieces (fine : ∀ p ∈ ps, p = .empty ∨ ∃ selected, Component p.units selected) (some : ps ≠ []) (apart : least ≤ k) :
    Reads least (points k ++ List.intercalate [CodeUnit.ofChar '.'] (ps.map Text.units)) (stepsFrom k ps) := by
  induction ps generalizing k least with
  | nil => exact absurd rfl some
  | cons p rest ih =>
    have fine_rest := fun q member => fine q (List.mem_cons_of_mem p member)
    cases rest with
    | nil =>
      rcases fine p List.mem_cons_self with rfl | ⟨selected,component⟩
      · rw [List.map_singleton,List.intercalate_singleton]
        show Reads least (points k ++ []) (ascent k)
        rw [List.append_nil]
        exact .points least k
      · have alone := Reads.component apart component (.points 1 0)
        rw [List.map_singleton,List.intercalate_singleton,stepsFrom_component component,← List.append_nil (points k ++ p.units)]
        exact alone
    | cons q rest =>
      rcases fine p List.mem_cons_self with rfl | ⟨selected,component⟩
      · have further := ih fine_rest nofun (Nat.le_succ_of_le apart)
        rw [points,List.replicate_succ',List.append_assoc] at further
        exact further
      · have further := Reads.component apart component (ih fine_rest nofun (Nat.le_refl 1))
        rw [stepsFrom_component component]
        rw [List.append_assoc] at further
        exact further

/-- A text is read just if it has the form of an address, and its steps are those of its runs and components. -/
theorem parse_iff : parse a = .ok steps ↔ Reads 0 a.units steps := by
  refine ⟨fun read => ?_,Reads.parse⟩
  obtain ⟨fine,rfl⟩ := parse_ok_iff.mp read
  have joined : List.intercalate [CodeUnit.ofChar '.'] ((pieces a).map Text.units) = a.units :=
    congrArg Text.units (Text.join_splitOn _ a)
  have reads := reads_pieces (isWellFormed_iff.mp fine) (by simp [pieces,Text.splitOn]) (Nat.le_refl 0)
  rw [joined] at reads
  exact reads

/-! ## Joining -/

/-- What does not start with a point starts with a component, if there is anything. -/
theorem stepsFrom_start (pointless : b.units.head? ≠ some (CodeUnit.ofChar '.')) (n : Nat) :
    stepsFrom n (pieces b) = ascent n ++ stepsFrom 0 (pieces b) := by
  obtain ⟨us⟩ := b
  cases us with
  | nil => exact (List.append_nil _).symm
  | cons u us =>
    have other : (u == CodeUnit.ofChar '.') = false := by simpa using pointless
    obtain ⟨first,rest,split⟩ := List.exists_cons_of_ne_nil (List.splitOn_ne_nil (CodeUnit.ofChar '.') us)
    have cut : pieces ⟨u :: us⟩ = ⟨u :: first⟩ :: rest.map Text.mk := by
      rw [pieces,Text.splitOn,List.splitOn_cons_eq_if_modifyHead,other,split]
      rfl
    rw [cut,stepsFrom,stepsFrom]
    rfl

/-- The last piece of what does not end in a point is not empty. -/
theorem pieces_last (pointless : us.getLast? ≠ some (CodeUnit.ofChar '.')) (some : us ≠ []) :
    ∃ ps p, pieces ⟨us⟩ = ps ++ [p] ∧ p.isEmpty = false := by
  induction us with
  | nil => exact absurd rfl some
  | cons u rest ih =>
    have cut : pieces ⟨u :: rest⟩ = if u == CodeUnit.ofChar '.' then .empty :: pieces ⟨rest⟩
        else (pieces ⟨rest⟩).modifyHead fun p => ⟨u :: p.units⟩ := by
      rw [pieces,Text.splitOn,List.splitOn_cons_eq_if_modifyHead]
      split
      · rfl
      · rw [pieces,Text.splitOn]
        cases List.splitOn (CodeUnit.ofChar '.') rest <;> rfl
    cases rest with
    | nil =>
      have other : (u == CodeUnit.ofChar '.') = false := by simpa using pointless
      exact ⟨[],⟨[u]⟩,by rw [cut,other]; rfl,rfl⟩
    | cons v rest =>
      rw [List.getLast?_cons_cons] at pointless
      obtain ⟨ps,p,split,filled⟩ := ih pointless (List.cons_ne_nil v rest)
      rw [cut,split]
      by_cases point : u == CodeUnit.ofChar '.'
      · exact ⟨.empty :: ps,p,by rw [if_pos point]; rfl,filled⟩
      · rw [if_neg point]
        cases ps with
        | nil => exact ⟨[],⟨u :: p.units⟩,rfl,rfl⟩
        | cons q qs => exact ⟨⟨u :: q.units⟩ :: qs,p,rfl,filled⟩

theorem stepsFrom_append (filled : p.isEmpty = false) (k : Nat) (ps qs : List Text) :
    stepsFrom k (ps ++ p :: qs) = stepsFrom k (ps ++ [p]) ++ stepsFrom 1 qs := by
  induction ps generalizing k with
  | nil => simp [stepsFrom,filled,ascent]
  | cons q ps ih =>
    rw [List.cons_append,List.cons_append,stepsFrom,stepsFrom]
    by_cases empty : q.isEmpty = true
    · rw [if_pos empty,if_pos empty,ih]
    · rw [if_neg empty,if_neg empty,ih,List.append_assoc]
      rfl

/-- An address that does not end in a point, a run of points and an address that does not start with one are an address, and so are
its steps the steps of the three. -/
theorem parse_append {first second : List Step} (left : parse a = .ok first) (right : parse b = .ok second)
    (closed : a.units.getLast? ≠ some (CodeUnit.ofChar '.')) (opened : b.units.head? ≠ some (CodeUnit.ofChar '.')) (positive : 1 ≤ n) :
    parse (a ++ ⟨points n⟩ ++ b) = .ok (first ++ ascent n ++ second) := by
  obtain ⟨m,rfl⟩ : ∃ m, n = m + 1 := ⟨n - 1,by omega⟩
  obtain ⟨fine_left,rfl⟩ := parse_ok_iff.mp left
  obtain ⟨fine_right,rfl⟩ := parse_ok_iff.mp right
  have cut : pieces (a ++ ⟨points (m + 1)⟩ ++ b) = pieces a ++ (List.replicate m .empty ++ pieces b) := by
    have meet := pieces_meet a.units (points m ++ b.units)
    rw [pieces_points] at meet
    rw [← meet]
    refine congrArg pieces (congrArg Text.mk ?_)
    exact List.append_assoc a.units (points (m + 1)) b.units
  rw [parse_ok_iff,isWellFormed_iff,cut]
  constructor
  · intro p member
    rcases List.mem_append.mp member with before | member
    · exact isWellFormed_iff.mp fine_left p before
    · rcases List.mem_append.mp member with run | after
      · exact .inl (List.eq_of_mem_replicate run)
      · exact isWellFormed_iff.mp fine_right p after
  · obtain ⟨us⟩ := a
    cases us with
    | nil =>
      show stepsFrom 1 (List.replicate m .empty ++ pieces b) = _
      rw [stepsFrom_points,stepsFrom_start opened,Nat.add_comm 1 m]
      rfl
    | cons u us =>
      obtain ⟨ps,p,split,filled⟩ := pieces_last closed nofun
      rw [split,List.append_assoc,List.singleton_append,stepsFrom_append filled,stepsFrom_points,stepsFrom_start opened,
        Nat.add_comm 1 m,List.append_assoc]

end Pieces

/-! ## Tokens -/

/-- The longest token that a text starts with: a run of points, an index, or a name, which may be starred. -/
def token : List CodeUnit → List CodeUnit
  | [] => []
  | u :: us =>
    if u = '0' then [u]
    else if u.isDigit then u :: us.takeWhile CodeUnit.isDigit
    else if u.startsName then u :: us.takeWhile CodeUnit.inName
    else if u = '.' then u :: us.takeWhile (· == CodeUnit.ofChar '.')
    else if u = '*' ∧ us.head?.any CodeUnit.startsName then u :: us.takeWhile CodeUnit.inName
    else []

/-- The tokens of a text from the left, what starts none passed over. -/
def tokens : List CodeUnit → List (List CodeUnit)
  | [] => []
  | u :: us =>
    match token (u :: us) with
    | [] => tokens us
    | v :: more => (v :: more) :: tokens (us.drop more.length)
termination_by us => us.length

/-- The steps of a token. -/
def tokenSteps (token : List CodeUnit) : List Step :=
  if token.head? = some (CodeUnit.ofChar '.') then ascent token.length
  else if token.head?.any CodeUnit.isDigit then [.select (.index (.ofNat (Number.valueOfDigits 10 token)))]
  else [.select (.key ⟨token⟩)]

section Tokens

variable {u : CodeUnit} {us rest : List CodeUnit} {selected : Selector} {steps : List Step} {least n : Nat}

theorem tokens_cut (cut : token (u :: us ++ rest) = u :: us) : tokens (u :: us ++ rest) = (u :: us) :: tokens rest := by
  rw [List.cons_append] at cut ⊢
  rw [tokens,cut]
  show (u :: us) :: tokens ((us ++ rest).drop us.length) = _
  rw [List.drop_left]

/-- A run is taken as far as it goes. -/
theorem takeWhile_run {p : CodeUnit → Bool} (run : ∀ v ∈ us, p v = true) (ends : ∀ v ∈ rest.head?, p v = false) :
    (us ++ rest).takeWhile p = us := by
  rw [List.takeWhile_append_of_pos run]
  cases rest with
  | nil => exact List.append_nil us
  | cons v rest => simp [ends v rfl]

theorem tokens_points (ends : rest.head? ≠ some (CodeUnit.ofChar '.')) (n : Nat) :
    (tokens (points n ++ rest)).flatMap tokenSteps = ascent n ++ (tokens rest).flatMap tokenSteps := by
  cases n with
  | zero => rfl
  | succ n =>
    have run : (points n ++ rest).takeWhile (· == CodeUnit.ofChar '.') = points n := by
      refine takeWhile_run (fun v member => beq_iff_eq.mpr (List.eq_of_mem_replicate member)) fun v first => ?_
      rw [beq_eq_false_iff_ne]
      rintro rfl
      exact ends first
    have cut : token (CodeUnit.ofChar '.' :: points n ++ rest) = CodeUnit.ofChar '.' :: points n := by
      show CodeUnit.ofChar '.' :: (points n ++ rest).takeWhile _ = _
      rw [run]
    show (tokens (CodeUnit.ofChar '.' :: points n ++ rest)).flatMap tokenSteps = _
    rw [tokens_cut cut,List.flatMap_cons]
    refine congrArg (· ++ _) ?_
    show ascent (points n).length.succ = _
    rw [points,List.length_replicate]

theorem tokens_component (component : Component us selected) (ends : ∀ v ∈ rest.head?, v = CodeUnit.ofChar '.') :
    (tokens (us ++ rest)).flatMap tokenSteps = .select selected :: (tokens rest).flatMap tokenSteps := by
  have outside {p : CodeUnit → Bool} (none : p '.' = false) : ∀ v ∈ rest.head?, p v = false := fun v first => ends v first ▸ none
  cases component with
  | zero =>
    have cut : token (CodeUnit.ofChar '0' :: [] ++ rest) = [CodeUnit.ofChar '0'] := rfl
    rw [tokens_cut cut]
    rfl
  | @decimal u us first nonzero digits =>
    have cut : token (u :: us ++ rest) = u :: us := by
      rw [List.cons_append,token,if_neg nonzero,if_pos first,takeWhile_run digits (outside (by decide))]
    have apart : u ≠ '.' := ne_point_of_inName (inName_of_isDigit first)
    rw [tokens_cut cut,List.flatMap_cons,tokenSteps,if_neg (by simpa using apart),if_pos (by simpa using first)]
    rfl
  | @name u us first names =>
    have other : u.isDigit = false := not_isDigit_of_startsName first
    have nonzero : u ≠ '0' := by
      rintro rfl
      exact absurd other (by decide)
    have cut : token (u :: us ++ rest) = u :: us := by
      rw [List.cons_append,token,if_neg nonzero,if_neg (by simp [other]),if_pos first,takeWhile_run names (outside (by decide))]
    have apart : u ≠ '.' := ne_point_of_inName (inName_of_startsName first)
    rw [tokens_cut cut,List.flatMap_cons,tokenSteps,if_neg (by simpa using apart),if_neg (by simp [other])]
    rfl
  | @starred u us first names =>
    have cut : token (CodeUnit.ofChar '*' :: (u :: us) ++ rest) = CodeUnit.ofChar '*' :: u :: us := by
      have run : (u :: us ++ rest).takeWhile CodeUnit.inName = u :: us :=
        takeWhile_run (List.forall_mem_cons.mpr ⟨inName_of_startsName first,names⟩) (outside (by decide))
      rw [List.cons_append,token,run]
      have start : CodeUnit.ofChar '*' = CodeUnit.ofChar '*' ∧ (u :: us ++ rest).head?.any CodeUnit.startsName = true := ⟨rfl,first⟩
      exact if_pos start
    rw [tokens_cut cut,List.flatMap_cons]
    rfl

/-- The steps of what is read are those of its tokens. -/
theorem Reads.tokens (reads : Reads least us steps) : steps = (Address.tokens us).flatMap tokenSteps := by
  induction reads with
  | points least n =>
    have run := @tokens_points [] nofun n
    rw [List.append_nil] at run
    rw [run,Address.tokens]
    exact (List.append_nil _).symm
  | @component least n us rest selected steps _ component follows ih =>
    have ends : ∀ v ∈ rest.head?, v = CodeUnit.ofChar '.' := by
      intro v first
      rcases follows.next with rfl | ⟨more,rfl⟩
      · cases first
      · exact (Option.some.inj first).symm
    have starts : (us ++ rest).head? ≠ some (CodeUnit.ofChar '.') := by
      obtain ⟨some,pointless⟩ := component.pointless
      obtain ⟨u,us,rfl⟩ := List.exists_cons_of_ne_nil some
      intro first
      obtain rfl := Option.some.inj first
      exact pointless List.mem_cons_self
    rw [List.append_assoc,tokens_points starts,tokens_component component ends,ih]

end Tokens

end ConfTree.Address
