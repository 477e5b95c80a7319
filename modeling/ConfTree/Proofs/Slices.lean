import ConfTree.Eval.Operators
import Mathlib.Data.List.Sort

/-!
# Slices

What a slice of a list consists of. A place is selected when it lies from the first bound on, before the last
one, in the direction of the stride and a whole number of strides from the first bound. The walk that takes a
slice passes the places selected and no others (`mem_places`), each of which is a place of the list
(`Selects.inside`), so the slice is the list of the items selected, in the direction of the stride.
-/
namespace ConfTree.Sequence

variable {α : Type}

/-- A value that a slice takes for a bound: an integer, or nothing. -/
inductive IsBound : Value → Option Int → Prop where
  | absent {v : Value} (missing : v.isMissing = true) : IsBound v none
  | integer {n : Number} {i : Int} (whole : n.int? = some i) : IsBound (.number n) (some i)

/-- The place of a range that is nearest to a place. -/
def clamp (low high b : Int) : Int := max low (min high b)

/-- Where a bound falls among `n` places: a negative one counts from the end, and one outside of what the walk in
the direction of the stride passes or ends at is drawn there. -/
def drawn (n : Nat) (stride b : Int) : Int :=
  let counted := if b < 0 then n + b else b
  if 0 < stride then clamp 0 n counted else clamp (-1) (n - 1) counted

/-- Where the walk over `n` places starts. -/
def firstPlace (n : Nat) (stride : Int) (start : Option Int) : Int :=
  (start.map (drawn n stride)).getD (if 0 < stride then 0 else n - 1)

/-- Where the walk over `n` places has ended. -/
def lastPlace (n : Nat) (stride : Int) (stop : Option Int) : Int :=
  (stop.map (drawn n stride)).getD (if 0 < stride then n else -1)

/-- A place lies from `first` on, before `last`, in the direction of the stride and a whole number of strides from
`first`. -/
def Selects (first last stride place : Int) : Prop :=
  (if 0 < stride then first ≤ place ∧ place < last else last < place ∧ place ≤ first) ∧ stride ∣ place - first

instance (first last stride place : Int) : Decidable (Selects first last stride place) :=
  inferInstanceAs (Decidable ((if 0 < stride then first ≤ place ∧ place < last else last < place ∧ place ≤ first) ∧ _))

/-- The items at the places selected, in the direction of the stride. -/
def selection (items : List α) (start stop : Option Int) (stride : Int) : List α :=
  let chosen := items.zipIdx.filter fun p =>
    Selects (firstPlace items.length stride start) (lastPlace items.length stride stop) stride p.2
  (if 0 < stride then chosen else chosen.reverse).map Prod.fst

theorem bound_ok {name : Text} {v : Value} {b : Option Int} (bounds : IsBound v b) : bound name v = .ok b := by
  cases bounds with
  | absent missing => simp only [bound,if_pos missing]
  | integer whole => simp only [bound,Value.isMissing,whole]; rfl

theorem place_eq (n : Nat) (stride fallback : Int) (b : Option Int) :
    place n stride fallback b = (b.map (drawn n stride)).getD fallback := by
  cases b with
  | none => rfl
  | some b =>
    simp only [place,drawn,clamp,Option.map_some,Option.getD_some]
    split <;> split <;> omega

theorem drawn_up {n : Nat} {stride : Int} (upward : 0 < stride) (b : Int) : 0 ≤ drawn n stride b ∧ drawn n stride b ≤ n := by
  simp only [drawn,if_pos upward,clamp]
  omega

theorem drawn_down {n : Nat} {stride : Int} (downward : ¬ 0 < stride) (b : Int) :
    -1 ≤ drawn n stride b ∧ drawn n stride b ≤ n - 1 := by
  simp only [drawn,if_neg downward,clamp]
  omega

/-- A place that is selected is one of the list. -/
theorem Selects.inside {n : Nat} {start stop : Option Int} {stride place : Int}
    (selects : Selects (firstPlace n stride start) (lastPlace n stride stop) stride place) : 0 ≤ place ∧ place < n := by
  obtain ⟨between,_⟩ := selects
  by_cases upward : 0 < stride
  · rw [if_pos upward] at between
    have first : 0 ≤ firstPlace n stride start := by
      cases start with
      | none => simp [firstPlace,upward]
      | some b => exact (drawn_up upward b).1
    have last : lastPlace n stride stop ≤ n := by
      cases stop with
      | none => simp [lastPlace,upward]
      | some b => exact (drawn_up upward b).2
    omega
  · rw [if_neg upward] at between
    have first : firstPlace n stride start ≤ n - 1 := by
      cases start with
      | none => simp [firstPlace,upward]
      | some b => exact (drawn_down upward b).2
    have last : -1 ≤ lastPlace n stride stop := by
      cases stop with
      | none => simp [lastPlace,upward]
      | some b => exact (drawn_down upward b).1
    omega

/-! ## The walk -/

/-- What is selected from a place on is the place and what is selected a stride further on. -/
theorem selects_step {start stop stride : Int} (ahead : 0 < toGo stop stride start) (place : Int) :
    Selects start stop stride place ↔ place = start ∨ Selects (start + stride) stop stride place := by
  have shifted : stride ∣ place - (start + stride) ↔ stride ∣ place - start := by
    rw [← Int.sub_sub]
    constructor
    · intro apart
      simpa using Int.dvd_add apart (Int.dvd_refl stride)
    · intro apart
      exact Int.dvd_sub apart (Int.dvd_refl stride)
  unfold toGo at ahead
  unfold Selects
  by_cases upward : 0 < stride
  · simp only [if_pos upward] at ahead ⊢
    constructor
    · rintro ⟨⟨low,high⟩,apart⟩
      rcases eq_or_lt_of_le low with here | beyond
      · exact .inl here.symm
      · have further : stride ≤ place - start := Int.le_of_dvd (by omega) apart
        exact .inr ⟨by omega,shifted.mpr apart⟩
    · rintro (rfl | ⟨between,apart⟩)
      · exact ⟨by omega,by simp⟩
      · exact ⟨by omega,shifted.mp apart⟩
  · simp only [if_neg upward] at ahead ⊢
    constructor
    · rintro ⟨⟨low,high⟩,apart⟩
      rcases eq_or_lt_of_le high with here | beyond
      · exact .inl here
      · have further : -stride ≤ start - place :=
          Int.le_of_dvd (by omega) (by rw [Int.neg_dvd,← Int.dvd_neg,Int.neg_sub]; exact apart)
        exact .inr ⟨by omega,shifted.mpr apart⟩
    · rintro (rfl | ⟨between,apart⟩)
      · exact ⟨by omega,by simp⟩
      · exact ⟨by omega,shifted.mp apart⟩

/-- The walk passes the places selected and no others. -/
theorem mem_places {stop stride : Int} (moves : stride ≠ 0) (start place : Int) :
    place ∈ places stop stride start ↔ Selects start stop stride place := by
  fun_induction places stop stride start with
  | case1 start more ih => rw [List.mem_cons,ih,selects_step more.2]
  | case2 start done =>
    have arrived : ¬ 0 < toGo stop stride start := fun ahead => done ⟨moves,ahead⟩
    unfold toGo at arrived
    unfold Selects
    by_cases upward : 0 < stride
    · simp only [if_pos upward] at arrived ⊢
      simp only [List.not_mem_nil,false_iff]
      omega
    · simp only [if_neg upward] at arrived ⊢
      simp only [List.not_mem_nil,false_iff]
      omega

/-- The walk goes in the direction of the stride. -/
theorem places_pairwise (stop stride start : Int) :
    (places stop stride start).Pairwise fun a b => if 0 < stride then a < b else b < a := by
  fun_induction places stop stride start with
  | case1 start more ih =>
    refine List.pairwise_cons.mpr ⟨fun place later => ?_,ih⟩
    have beyond := ((mem_places more.1 _ _).mp later).1
    have moves := more.1
    by_cases upward : 0 < stride
    · rw [if_pos upward] at beyond ⊢
      omega
    · rw [if_neg upward] at beyond ⊢
      omega
  | case2 start done => exact .nil

/-! ## The slice -/

/-- The places of a list in the direction of a stride. -/
def directed (stride : Int) (n : Nat) : List Nat := if 0 < stride then List.range n else (List.range n).reverse

theorem mem_directed {stride : Int} {n i : Nat} : i ∈ directed stride n ↔ i < n := by
  unfold directed
  split <;> simp

/-- The walk over a list passes the places that are selected, in the direction of the stride. -/
theorem places_eq {n : Nat} {stride : Int} (moves : stride ≠ 0) (start stop : Option Int) :
    places (lastPlace n stride stop) stride (firstPlace n stride start) =
      ((directed stride n).filter fun i : Nat =>
        Selects (firstPlace n stride start) (lastPlace n stride stop) stride i).map Int.ofNat := by
  have same (place : Int) : place ∈ places (lastPlace n stride stop) stride (firstPlace n stride start) ↔
      place ∈ ((directed stride n).filter fun i : Nat =>
        Selects (firstPlace n stride start) (lastPlace n stride stop) stride i).map Int.ofNat := by
    rw [mem_places moves,List.mem_map]
    constructor
    · intro selects
      obtain ⟨low,high⟩ := selects.inside
      lift place to Nat using low
      exact ⟨place,by simpa [mem_directed] using ⟨by omega,selects⟩,rfl⟩
    · rintro ⟨i,chosen,rfl⟩
      simpa using (List.mem_filter.mp chosen).2
  have walk := places_pairwise (lastPlace n stride stop) stride (firstPlace n stride start)
  by_cases upward : 0 < stride
  · simp only [if_pos upward] at walk
    have ascending : (directed stride n).Pairwise (· < ·) := by
      rw [directed,if_pos upward]
      exact List.pairwise_lt_range
    refine List.Pairwise.eq_of_mem_iff walk (List.pairwise_map.mpr ?_) same
    exact (ascending.filter _).imp fun below => Int.ofNat_lt.mpr below
  · simp only [if_neg upward] at walk
    have descending : (directed stride n).Pairwise (· > ·) := by
      rw [directed,if_neg upward,List.pairwise_reverse]
      exact List.pairwise_lt_range
    refine List.Pairwise.eq_of_mem_iff (r := (· > ·)) walk (List.pairwise_map.mpr ?_) same
    exact (descending.filter _).imp fun below => Int.ofNat_lt.mpr below

theorem itemAt_eq {items : List α} {i : Nat} (inside : i < items.length) (hole : α) : itemAt items hole i = items[i] := by
  simp [itemAt,inside]

/-- The items with their places, read off the places. -/
theorem zipIdx_eq (items : List α) (hole : α) :
    items.zipIdx = (List.range items.length).map fun i : Nat => (itemAt items hole i,i) := by
  refine List.ext_getElem (by simp) fun i here there => ?_
  have inside : i < items.length := by simpa using here
  simp [itemAt_eq inside]

/-- What stands at the places of the walk over a list is what is selected. -/
theorem map_itemAt_places (items : List α) (hole : α) {stride : Int} (moves : stride ≠ 0) (start stop : Option Int) :
    (places (lastPlace items.length stride stop) stride (firstPlace items.length stride start)).map (itemAt items hole) =
      selection items start stop stride := by
  rw [places_eq moves,selection,zipIdx_eq items hole,directed]
  split <;> simp [List.filter_map,List.filter_reverse,Function.comp_def]

theorem mem_of_mem_selection {items : List α} {start stop : Option Int} {stride : Int} {v : α}
    (chosen : v ∈ selection items start stop stride) : v ∈ items := by
  obtain ⟨p,among,rfl⟩ := List.mem_map.mp chosen
  have listed : p ∈ items.zipIdx := by
    split at among
    · exact List.mem_of_mem_filter among
    · exact List.mem_of_mem_filter (List.mem_reverse.mp among)
  exact List.fst_mem_of_mem_zipIdx listed

/-- A slice of a list, taken by bounds that are integers or absent and by a stride that moves on. -/
theorem sliceItems_ok (items : List α) (hole : α) {start stop step : Value} {first last stride : Option Int}
    (starts : IsBound start first) (stops : IsBound stop last) (steps : IsBound step stride) (moves : stride.getD 1 ≠ 0) :
    sliceItems items hole start stop step = .ok (selection items first last (stride.getD 1)) := by
  rw [← map_itemAt_places items hole moves]
  simp only [sliceItems,bound_ok starts,bound_ok stops,bound_ok steps,place_eq,firstPlace,lastPlace]
  exact if_neg moves

theorem slice_list (id : Identity) (items : List Value) {start stop step : Value} {first last stride : Option Int}
    (starts : IsBound start first) (stops : IsBound stop last) (steps : IsBound step stride) (moves : stride.getD 1 ≠ 0) :
    slice (.list id items) start stop step = Compute.list (selection items first last (stride.getD 1)) := by
  simp only [slice,sliceItems_ok items .undefined starts stops steps moves]
  rfl

theorem zipIdx_pairwise (items : List α) : items.zipIdx.Pairwise fun p q => p.2 < q.2 := by
  rw [← List.pairwise_map (f := Prod.snd) (R := (· < ·)),List.zipIdx_map_snd]
  exact List.pairwise_lt_range'

/-- A list with what has a property in front of what has not is cut in two by the property. -/
theorem filter_append_filter {q : α → Bool} {items : List α} (ahead : items.Pairwise fun a b => q b = true → q a = true) :
    items.filter q ++ items.filter (fun a => !q a) = items := by
  induction ahead with
  | nil => rfl
  | @cons a rest before _ ih =>
    by_cases here : q a = true
    · simpa [here] using ih
    · have later : ∀ b ∈ rest, q b = false := fun b member => Bool.eq_false_iff.mpr fun holds => here (before b member holds)
      have first_part : rest.filter q = [] := List.filter_eq_nil_iff.mpr fun b member => by simp [later b member]
      rw [first_part,List.nil_append] at ih
      simp [here,first_part,ih]

/-- The part of a list before a bound and the part from the bound on make up the list. -/
theorem selection_append (items : List α) (b : Int) :
    selection items none (some b) 1 ++ selection items (some b) none 1 = items := by
  have before : selection items none (some b) 1 =
      (items.zipIdx.filter fun p => decide ((p.2 : Int) < drawn items.length 1 b)).map Prod.fst := by
    simp [selection,Selects,firstPlace,lastPlace]
  have after : selection items (some b) none 1 =
      (items.zipIdx.filter fun p => !decide ((p.2 : Int) < drawn items.length 1 b)).map Prod.fst := by
    simp only [selection,if_pos Int.one_pos]
    congr 1
    refine List.filter_congr fun p listed => ?_
    have inside : p.2 < items.length := by simpa using List.snd_lt_add_of_mem_zipIdx listed
    rw [← decide_not,decide_eq_decide]
    simp [Selects,firstPlace,lastPlace,inside]
  rw [before,after,← List.map_append,filter_append_filter,List.zipIdx_map_fst]
  exact (zipIdx_pairwise items).imp fun below low => by simp at low ⊢; omega

theorem selection_reverse (items : List α) : selection items none none (-1) = items.reverse := by
  have all : items.zipIdx.filter (fun p => Selects (firstPlace items.length (-1) none) (lastPlace items.length (-1) none) (-1) p.2) =
      items.zipIdx := by
    refine List.filter_eq_self.mpr fun p listed => ?_
    have inside : p.2 < items.length := by simpa using List.snd_lt_add_of_mem_zipIdx listed
    simp [Selects,firstPlace,lastPlace]
    omega
  simp only [selection,all]
  simp

/-- A slice of a list is the list of the items selected; the part before an index and the part from it on make up
the list; and with a stride of minus one all of it comes back reversed. -/
theorem slice_selects (id : Identity) (items : List Value) {start stop step : Value} {first last stride : Option Int}
    (starts : IsBound start first) (stops : IsBound stop last) (steps : IsBound step stride) (moves : stride.getD 1 ≠ 0) :
    slice (.list id items) start stop step = Compute.list (selection items first last (stride.getD 1)) ∧
      (∀ v ∈ selection items first last (stride.getD 1), v ∈ items) ∧
      (∀ index i, IsBound index (some i) → ∀ next : Identity,
        (do
          let before ← slice (.list id items) .undefined index .undefined
          let after ← slice (.list id items) index .undefined .undefined
          Operators.binary .add before after : Compute Value) next = .ok (.list (next + 2) items,next + 3)) ∧
      ∀ back, IsBound back (some (-1)) → slice (.list id items) .undefined .undefined back = Compute.list items.reverse := by
  have none_given : IsBound .undefined none := .absent rfl
  refine ⟨slice_list id items starts stops steps moves,fun v chosen => mem_of_mem_selection chosen,?_,?_⟩
  · intro index i bounds next
    rw [slice_list id items none_given bounds none_given (by decide),slice_list id items bounds none_given none_given (by decide)]
    show Except.ok (Value.list (next + 2) (selection items none (some i) 1 ++ selection items (some i) none 1),next + 3) = _
    rw [selection_append]
  · intro back bounds
    rw [slice_list id items none_given none_given bounds (by decide)]
    exact congrArg Compute.list (selection_reverse items)

/-- Every second item from the last but one on, backwards. -/
theorem slice_selects_backwards :
    slice (.list 0 [.null,.bool true,.text "a",.bool false]) (.number (Number.ofInt (-2))) .null (.number (Number.ofInt (-2))) =
      Compute.list [.text "a",.null] := by
  have minus_two : IsBound (.number (Number.ofInt (-2))) (some (-2)) := .integer (by decide +kernel)
  exact (slice_selects 0 [.null,.bool true,.text "a",.bool false] minus_two (.absent rfl) minus_two (by decide)).1

end ConfTree.Sequence
