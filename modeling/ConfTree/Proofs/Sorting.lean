import ConfTree.Configuration
import ConfTree.Proofs.Casts
import ConfTree.Proofs.Edits
import ConfTree.Proofs.Ordering

/-!
# Sorting

Sorting goes by the order of values of one kind: numbers by their levels, texts by their units (`rank`). Values of two kinds, or of
any other, have no order at all. Each value that is sorted is compared with one that stands beside it or with one of those already
sorted, so a list of two values or more is sorted just if all are of one kind (`sort_ok_iff`); and the place found for a value parts
those not above it from those above it (`place_parts`), which keeps equal values in the order in which they were given
(`Arranges.insert`).
-/
namespace ConfTree.Order

open Operators

/-- Two numbers, none of them a not-a-number, or two texts. -/
inductive Alike : Value → Value → Prop where
  | numbers {x y : Number} (left : x.isNaN = false) (right : y.isNaN = false) : Alike (.number x) (.number y)
  | texts (s t : Text) : Alike (.text s) (.text t)

/-- The order of two values of one kind. -/
def rank : Value → Value → Ordering
  | .number x, .number y => Ord.compare x.level y.level
  | .text s, .text t => textOrder s t
  | _, _ => .eq

section Rank

variable {a b c : Value} {o : Ordering}

theorem Alike.symm (alike : Alike a b) : Alike b a := by
  cases alike with
  | numbers left right => exact .numbers right left
  | texts s t => exact .texts t s

theorem Alike.trans (first : Alike a b) (second : Alike b c) : Alike a c := by
  cases first with
  | numbers left _ =>
    cases second with
    | numbers _ right => exact .numbers left right
  | texts s _ =>
    cases second with
    | texts _ t => exact .texts s t

theorem rank_swap (a b : Value) : rank b a = (rank a b).swap := by
  cases a with
  | number x =>
    cases b with
    | number y => exact (Int.compare_swap ..).symm
    | _ => rfl
  | text s =>
    cases b with
    | text t => exact textOrder_swap s t
    | _ => rfl
  | _ => cases b <;> rfl

theorem rank_lt_comm : rank b a = .lt ↔ rank a b = .gt := by
  rw [rank_swap]
  cases rank a b <;> simp

/-- What is not above a value that is not above a third one is not above that. -/
theorem Alike.rank_trans (first : Alike a b) (second : Alike b c) (lower : rank a b ≠ .gt) (upper : rank b c ≠ .gt) : rank a c ≠ .gt := by
  cases first with
  | @numbers x y left middle =>
    cases second with
    | @numbers _ z _ right =>
      have below : x.level ≤ y.level := Int.not_lt.mp (mt Int.compare_eq_gt.mpr lower)
      have above : y.level ≤ z.level := Int.not_lt.mp (mt Int.compare_eq_gt.mpr upper)
      exact mt Int.compare_eq_gt.mp (Int.not_lt.mpr (Int.le_trans below above))
  | texts s t =>
    cases second with
    | texts _ u =>
      have not_below {p q : Text} (rank : textOrder p q ≠ .gt) : p.units ≤ q.units := by
        refine List.not_lt.mp fun below => rank ?_
        have swapped : textOrder q p = .lt := textOrder_lt.mpr below
        rw [textOrder_swap,swapped]
        rfl
      have most : s.units ≤ u.units := List.le_trans (not_below lower) (not_below upper)
      intro above
      have swapped : textOrder u s = .lt := by
        rw [textOrder_swap]
        exact congrArg Ordering.swap above
      exact List.not_lt.mpr most (textOrder_lt.mp swapped)

theorem Alike.not_rank_trans (first : Alike a b) (second : Alike b c) (strict : o ≠ .eq) (lower : rank a b ≠ o) (upper : rank b c ≠ o) :
    rank a c ≠ o := by
  cases o with
  | eq => exact absurd rfl strict
  | gt => exact first.rank_trans second lower upper
  | lt =>
    rw [Ne,rank_lt_comm] at *
    exact second.symm.rank_trans first.symm upper lower

theorem Alike.rank_lt_trans (first : Alike a b) (second : Alike b c) (lower : rank a b = .lt) (upper : rank b c ≠ .gt) : rank a c = .lt := by
  refine rank_lt_comm.mpr ?_
  by_contra not_below
  have back : rank b a ≠ .gt := second.rank_trans (first.trans second).symm upper not_below
  rw [rank_swap,lower] at back
  exact back rfl

/-- Values of one kind are less, equal or greater as their order says. -/
theorem Alike.compare (alike : Alike a b) : Operators.compare .less a b = .ok (rank a b == .lt) ∧
    Operators.compare .greater a b = .ok (rank a b == .gt) ∧ Value.equal a b = (rank a b == .eq) := by
  cases alike with
  | texts s t =>
    have stand := stand_texts s t
    exact ⟨stand.compare .less nofun,stand.compare .greater nofun,stand.equal⟩
  | @numbers x y left right =>
    by_cases apart : x.isFinite = true ∨ x ≠ y
    · have stand := stand_numbers left right apart
      exact ⟨stand.compare .less nofun,stand.compare .greater nofun,stand.equal⟩
    · rw [not_or,not_not] at apart
      obtain ⟨endless,rfl⟩ := apart
      obtain ⟨a,finite⟩ | ⟨negative,rfl⟩ := Number.finite_or_infinite left
      · rcases Number.eq_finite finite with ⟨fits,rfl⟩ | ⟨_,rfl⟩ <;> exact absurd rfl endless
      · have level : rank (.number (.infinite negative)) (.number (.infinite negative)) = .eq := Int.compare_eq_eq.mpr rfl
        rw [level]
        exact ⟨compare_infinity negative nofun,compare_infinity negative nofun,Number.same_self (x := .infinite negative) rfl⟩

/-- Sorting goes by the order of values of one kind. -/
theorem Alike.order (alike : Alike a b) : Order.order a b = .ok (rank a b) := by
  obtain ⟨less,greater,_⟩ := alike.compare
  unfold Order.order
  rw [less,greater]
  cases rank a b <;> rfl

/-- Values that sorting can compare are of one kind, not-a-number apart. -/
theorem alike_of_order (left : a ≠ .number .nan) (right : b ≠ .number .nan) (ordered : Order.order a b = .ok o) : Alike a b := by
  have number {x : Number} (other : Value.number x ≠ .number .nan) : x.isNaN = false := by
    cases x with
    | nan => exact absurd rfl other
    | _ => rfl
  cases a with
  | number x =>
    cases b with
    | number y => exact .numbers (number left) (number right)
    | _ => cases ordered
  | text s =>
    cases b with
    | text t => exact .texts s t
    | _ => cases ordered
  | _ => cases ordered

/-- What equals a value of a kind is of that kind. -/
theorem Alike.of_equal (alike : Alike b b) (same : Value.equal a b = true) : Alike a b := by
  cases alike with
  | @numbers _ y _ right =>
    cases a with
    | number x =>
      refine .numbers ?_ right
      cases x with
      | nan => cases same
      | _ => rfl
    | _ => cases same
  | texts s =>
    cases a with
    | text t => exact .texts t s
    | _ => cases same

/-- Two values that equal a third one are neither above nor below each other. -/
theorem Alike.not_below (alike : Alike a b) (left : Value.equal c a = true) (right : Value.equal c b = true) : rank a b ≠ .lt := by
  intro below
  have first : Alike c a := (alike.trans alike.symm).of_equal left
  have second : Alike c b := first.trans alike
  rw [first.compare.2.2,beq_iff_eq] at left
  rw [second.compare.2.2,beq_iff_eq] at right
  have lower : rank a c = .lt := alike.rank_lt_trans second.symm below (by rw [rank_swap,right]; nofun)
  rw [rank_swap,left] at lower
  cases lower

end Rank

section Place

variable {v : Value} {vs ws left right : List Value} {sorted : Array Value}

/-- Values of one kind in ascending order. -/
structure Ascending (vs : List Value) : Prop where
  ordered : vs.Pairwise fun x y => rank x y ≠ .gt
  alike : ∀ x ∈ vs, ∀ y ∈ vs, Alike x y

/-- Two parts of a list, of which a value is above the second one and not below the first one. -/
structure Parts (v : Value) (vs left right : List Value) : Prop where
  whole : vs = left ++ right
  lower : ∀ x ∈ left, rank x v ≠ .gt
  upper : ∀ x ∈ right, rank v x = .lt

/-- The place found for a value of the kind parts the values. -/
theorem place_parts (ascending : Ascending sorted.toList) (alike : ∀ x ∈ sorted.toList, Alike v x) {low high : Nat}
    (inside : high ≤ sorted.size) (lower : ∀ x ∈ sorted.toList.take low, rank x v ≠ .gt)
    (upper : ∀ x ∈ sorted.toList.drop high, rank v x = .lt) (range : low ≤ high) :
    ∃ k, place v sorted low high = .ok k ∧ k ≤ sorted.size ∧ Parts v sorted.toList (sorted.toList.take k) (sorted.toList.drop k) := by
  fun_induction place v sorted low high with
  | case1 low high wide mid ih_low ih_high =>
    have middle : mid < sorted.toList.length := by
      simp only [Array.length_toList]
      omega
    have rest : sorted.toList.drop mid = sorted.toList[mid] :: sorted.toList.drop (mid + 1) := List.drop_eq_getElem_cons middle
    have halves : sorted.toList = sorted.toList.take mid ++ sorted.toList[mid] :: sorted.toList.drop (mid + 1) := by
      rw [← rest,List.take_append_drop]
    obtain ⟨_,cross,across⟩ := List.pairwise_append.mp (halves ▸ ascending.ordered)
    have after := (List.pairwise_cons.mp cross).1
    have member : sorted.toList[mid] ∈ sorted.toList := List.getElem_mem middle
    have found : sorted[mid]?.getD .undefined = sorted.toList[mid] := by
      simp [show mid < sorted.size by simpa using middle]
    rw [found,(alike _ member).order]
    cases position : rank v sorted.toList[mid] with
    | lt =>
      refine ih_low (by omega) lower ?_ (by omega)
      intro x later
      rw [rest] at later
      rcases List.mem_cons.mp later with rfl | later
      · exact position
      · have inside := List.mem_of_mem_drop later
        exact (alike _ member).rank_lt_trans (ascending.alike _ member x inside) position (after x later)
    | eq | gt =>
      have not_above : rank sorted.toList[mid] v ≠ .gt := by
        rw [rank_swap,position]
        nofun
      refine ih_high inside ?_ upper (by omega)
      intro x earlier
      rw [List.take_add_one,List.getElem?_eq_getElem middle] at earlier
      rcases List.mem_append.mp earlier with earlier | here
      · have inside := List.mem_of_mem_take earlier
        exact (ascending.alike x inside _ member).rank_trans (alike _ member).symm
          (across x earlier _ List.mem_cons_self) not_above
      · obtain rfl : x = sorted.toList[mid] := by simpa using here
        exact not_above
  | case2 low high narrow =>
    obtain rfl : low = high := by omega
    exact ⟨low,rfl,inside,⟨(List.take_append_drop ..).symm,lower,upper⟩⟩

theorem insertIdx_parts {k : Nat} (inside : k ≤ vs.length) : vs.insertIdx k v = vs.take k ++ v :: vs.drop k := by
  induction k generalizing vs with
  | zero => rfl
  | succ k ih =>
    cases vs with
    | nil => cases inside
    | cons x rest =>
      rw [List.insertIdx_succ_cons,ih (Nat.le_of_succ_le_succ inside)]
      rfl

/-- A value of the kind is inserted where it parts the values. -/
theorem insert_parts (ascending : Ascending sorted.toList) (alike : ∀ x ∈ sorted.toList, Alike v x) :
    ∃ left right grown, insert sorted v = .ok grown ∧ Parts v sorted.toList left right ∧ grown.toList = left ++ v :: right := by
  have lower : ∀ x ∈ sorted.toList.take 0, rank x v ≠ .gt := by simp
  have upper : ∀ x ∈ sorted.toList.drop sorted.size, rank v x = .lt := by
    rw [← Array.length_toList,List.drop_length]
    nofun
  obtain ⟨k,found,inside,parts⟩ := place_parts ascending alike (Nat.le_refl _) lower upper (Nat.zero_le _)
  refine ⟨_,_,sorted.insertIdxIfInBounds k v,by rw [insert,found]; rfl,parts,?_⟩
  rw [Array.insertIdxIfInBounds,dif_pos inside,Array.toList_insertIdx]
  exact insertIdx_parts inside

/-! ## Arrangements and runs -/

/-- A list in ascending order that holds what was given, equal values in the order in which they were given. -/
structure Arranges (given arranged : List Value) : Prop where
  perm : arranged.Perm given
  ascending : Ascending arranged
  stable : ∀ w, arranged.filter (Value.equal w) = given.filter (Value.equal w)

/-- Values of one kind that are in ascending order are arranged. -/
theorem Ascending.arranges (ascending : Ascending vs) : Arranges vs vs := ⟨.refl _,ascending,fun _ => rfl⟩

/-- Values of one kind that are in strictly descending order are arranged by turning them round. -/
theorem arranges_reverse (descending : vs.Pairwise fun x y => rank x y = .gt) (alike : ∀ x ∈ vs, ∀ y ∈ vs, Alike x y) :
    Arranges vs vs.reverse := by
  refine ⟨List.reverse_perm vs,⟨?_,?_⟩,?_⟩
  · refine List.pairwise_reverse.mpr (descending.imp ?_)
    intro x y above
    rw [rank_swap,above]
    nofun
  · simpa using alike
  · intro w
    -- No two of the values are equal, so each value equals one of them at most.
    have apart : (vs.filter (Value.equal w)).Pairwise fun _ _ => False := by
      refine List.Pairwise.imp_of_mem ?_ (descending.sublist List.filter_sublist)
      intro x y first second above
      obtain ⟨first,left⟩ := List.mem_filter.mp first
      obtain ⟨second,right⟩ := List.mem_filter.mp second
      exact (alike y second x first).not_below right left (rank_lt_comm.mpr above)
    rw [List.filter_reverse]
    match same : vs.filter (Value.equal w) with
    | [] | [_] => rfl
    | x :: y :: rest =>
      rw [same] at apart
      exact ((List.pairwise_cons.mp apart).1 y List.mem_cons_self).elim

/-- A value of the kind, put where it parts the values, is arranged with them as if it had been given last. -/
theorem Arranges.insert (arranges : Arranges vs ws) (alike : ∀ x ∈ ws, Alike v x) (self : Alike v v) (parts : Parts v ws left right) :
    Arranges (vs ++ [v]) (left ++ v :: right) := by
  have within {x : Value} : x ∈ left ++ v :: right ↔ x = v ∨ x ∈ ws := by
    rw [parts.whole]
    simp
    tauto
  refine ⟨?_,⟨?_,?_⟩,?_⟩
  · refine List.perm_middle.trans (List.Perm.trans ?_ (List.perm_append_singleton v vs).symm)
    exact (parts.whole ▸ arranges.perm).cons v
  · obtain ⟨before,after,across⟩ := List.pairwise_append.mp (parts.whole ▸ arranges.ascending.ordered)
    refine List.pairwise_append.mpr ⟨before,List.pairwise_cons.mpr ⟨?_,after⟩,?_⟩
    · intro y later
      rw [parts.upper y later]
      nofun
    · intro x earlier y later
      rcases List.mem_cons.mp later with rfl | later
      · exact parts.lower x earlier
      · exact across x earlier y later
  · intro x first y second
    rcases within.mp first with here | old <;> rcases within.mp second with there | old'
    · rwa [here,there]
    · rw [here]
      exact alike y old'
    · rw [there]
      exact (alike x old).symm
    · exact arranges.ascending.alike x old y old'
  · intro w
    have kept := arranges.stable w
    rw [parts.whole,List.filter_append] at kept
    rw [List.filter_append,List.filter_append,List.filter_cons,← kept]
    by_cases same : Value.equal w v = true
    · -- What is above the value is not equal to what equals it.
      have none : right.filter (Value.equal w) = [] := by
        refine List.filter_eq_nil_iff.mpr ?_
        intro x later equal
        exact (alike x (by simp [parts.whole,later])).not_below same equal (parts.upper x later)
      simp [same,none]
    · simp [same]

/-- A later value goes on with a run after an earlier one: not below, or with `descending` below. -/
def GoesOn (descending : Bool) (later earlier : Value) : Prop := (rank later earlier == .lt) = descending

theorem Alike.goesOn_trans {descending : Bool} {x y z : Value} (first : Alike x y) (second : Alike y z) (later : GoesOn descending x y)
    (earlier : GoesOn descending y z) : GoesOn descending x z := by
  unfold GoesOn at *
  cases descending with
  | true =>
    rw [beq_iff_eq] at *
    exact first.rank_lt_trans second later (by rw [earlier]; nofun)
  | false =>
    rw [beq_eq_false_iff_ne] at *
    exact first.not_rank_trans second nofun later earlier

/-- A run over values of one kind: it takes some of those ahead, each of which goes on with it. -/
theorem run_goesOn {descending : Bool} {previous : Value} {earlier ahead : List Value}
    (alike : ∀ x ∈ previous :: earlier ++ ahead, ∀ y ∈ previous :: earlier ++ ahead, Alike x y)
    (held : (previous :: earlier).Pairwise (GoesOn descending)) : ∃ start left, run descending previous earlier ahead = .ok (start,left) ∧
      start.reverse ++ left = (previous :: earlier).reverse ++ ahead ∧ start.Pairwise (GoesOn descending) := by
  induction ahead generalizing previous earlier with
  | nil => exact ⟨previous :: earlier,[],rfl,rfl,held⟩
  | cons v rest ih =>
    have beside : Alike v previous := alike v (by simp) previous (by simp)
    have compared : run descending previous earlier (v :: rest) = if (rank v previous == .lt) != descending
        then .ok (previous :: earlier,v :: rest) else run descending v (previous :: earlier) rest := by
      rw [run,beside.order]
      rfl
    rw [compared]
    by_cases on : GoesOn descending v previous
    · have held' : (v :: previous :: earlier).Pairwise (GoesOn descending) := by
        refine List.pairwise_cons.mpr ⟨?_,held⟩
        intro y member
        rcases List.mem_cons.mp member with rfl | older
        · exact on
        · exact beside.goesOn_trans (alike previous (by simp) y (by simp [older])) on ((List.pairwise_cons.mp held).1 y older)
      have alike' : ∀ x ∈ v :: previous :: earlier ++ rest, ∀ y ∈ v :: previous :: earlier ++ rest, Alike x y := by
        intro x first y second
        refine alike x ?_ y ?_
        · simp only [List.cons_append,List.mem_cons,List.mem_append] at first ⊢
          tauto
        · simp only [List.cons_append,List.mem_cons,List.mem_append] at second ⊢
          tauto
      obtain ⟨start,left,ran,whole,pairs⟩ := ih alike' held'
      refine ⟨start,left,?_,by simpa using whole,pairs⟩
      rw [if_neg (by simp only [bne_iff_ne,ne_eq,not_not]; exact on)]
      exact ran
    · refine ⟨previous :: earlier,v :: rest,?_,rfl,held⟩
      rw [if_pos (by simp only [bne_iff_ne,ne_eq]; exact on)]

/-! ## Whole lists -/

/-- Values of one kind are inserted one after another. -/
theorem foldlM_insert (arranges : Arranges vs sorted.toList) (alike : ∀ x ∈ vs ++ ws, ∀ y ∈ vs ++ ws, Alike x y) :
    ∃ grown, ws.foldlM insert sorted = .ok grown ∧ Arranges (vs ++ ws) grown.toList := by
  induction ws generalizing vs sorted with
  | nil => exact ⟨sorted,rfl,by simpa using arranges⟩
  | cons v rest ih =>
    have beside : ∀ x ∈ sorted.toList, Alike v x := by
      intro x member
      exact alike v (by simp) x (List.mem_append_left _ (arranges.perm.mem_iff.mp member))
    obtain ⟨left,right,grown,inserted,parts,list⟩ := insert_parts arranges.ascending beside
    have arranges' := arranges.insert beside (alike v (by simp) v (by simp)) parts
    rw [← list] at arranges'
    obtain ⟨last,rest_inserted,whole⟩ := ih arranges' (by simpa using alike)
    refine ⟨last,?_,by simpa using whole⟩
    rw [List.foldlM_cons,inserted]
    exact rest_inserted

/-- A run, last value first, is arranged as it stands if it descends, and turned round if not. -/
theorem arranges_start {descending : Bool} {start : List Value} (held : start.Pairwise (GoesOn descending))
    (alike : ∀ x ∈ start, ∀ y ∈ start, Alike x y) : Arranges start.reverse (if descending then start else start.reverse) := by
  have alike' : ∀ x ∈ start.reverse, ∀ y ∈ start.reverse, Alike x y := by simpa using alike
  cases descending with
  | true =>
    have falling : start.reverse.Pairwise fun x y => rank x y = .gt := by
      refine List.pairwise_reverse.mpr (held.imp ?_)
      intro later earlier on
      exact rank_lt_comm.mp (beq_iff_eq.mp on)
    simpa using arranges_reverse falling alike'
  | false =>
    refine Ascending.arranges ⟨List.pairwise_reverse.mpr (held.imp ?_),alike'⟩
    intro later earlier on
    exact mt rank_lt_comm.mpr (beq_eq_false_iff_ne.mp on)

theorem sort_of_run {first second : Value} {rest start left : List Value} {o : Ordering} (ordered : Order.order second first = .ok o)
    (ran : run (o == Ordering.lt) second [first] rest = .ok (start,left)) :
    sort (first :: second :: rest) =
      Array.toList <$> left.foldlM insert (if o == Ordering.lt then start else start.reverse).toArray := by
  rw [sort,ordered]
  show (run (o == Ordering.lt) second [first] rest >>= _) = _
  rw [ran]
  rfl

/-- Values of one kind are sorted. -/
theorem sort_alike (alike : ∀ x ∈ vs, ∀ y ∈ vs, Alike x y) : ∃ sorted, sort vs = .ok sorted ∧ Arranges vs sorted := by
  match vs with
  | [] => exact ⟨[],rfl,Ascending.arranges ⟨.nil,alike⟩⟩
  | [v] => exact ⟨[v],rfl,Ascending.arranges ⟨List.pairwise_singleton ..,alike⟩⟩
  | first :: second :: rest =>
    have beside : Alike second first := alike second (by simp) first (by simp)
    have alike' : ∀ x ∈ second :: [first] ++ rest, ∀ y ∈ second :: [first] ++ rest, Alike x y := by
      intro x here y there
      refine alike x ?_ y ?_
      · simpa [or_left_comm] using here
      · simpa [or_left_comm] using there
    have held : [second,first].Pairwise (GoesOn (rank second first == .lt)) := by simp [GoesOn]
    obtain ⟨start,left,ran,whole,held⟩ := run_goesOn alike' held
    have given : start.reverse ++ left = first :: second :: rest := by simpa using whole
    have among {x : Value} (member : x ∈ start) : x ∈ first :: second :: rest := by
      rw [← given]
      simp [member]
    have arranged : Arranges start.reverse (if rank second first == Ordering.lt then start else start.reverse).toArray.toList :=
      arranges_start held fun x here y there => alike x (among here) y (among there)
    obtain ⟨grown,inserted,arranges⟩ := foldlM_insert arranged (given ▸ alike)
    refine ⟨grown.toList,?_,given ▸ arranges⟩
    rw [sort_of_run beside.order ran,inserted]
    rfl

/-! ## Values of several kinds -/

theorem run_alike {descending : Bool} {previous : Value} {earlier ahead start left : List Value}
    (numbers : ∀ x ∈ previous :: ahead, x ≠ .number .nan) (ran : run descending previous earlier ahead = .ok (start,left)) :
    start.reverse ++ left = (previous :: earlier).reverse ++ ahead ∧ start ≠ [] ∧
      ∀ x ∈ start, x ∈ previous :: earlier ∨ Alike x previous := by
  induction ahead generalizing previous earlier with
  | nil =>
    obtain ⟨rfl,rfl⟩ : previous :: earlier = start ∧ [] = left := by simpa [run] using ran
    exact ⟨rfl,nofun,fun x member => .inl member⟩
  | cons v rest ih =>
    cases ordered : Order.order v previous with
    | error issue =>
      rw [run,ordered] at ran
      cases ran
    | ok o =>
      have beside : Alike v previous := alike_of_order (numbers v (by simp)) (numbers previous (by simp)) ordered
      have compared : run descending previous earlier (v :: rest) = if (o == .lt) != descending
          then .ok (previous :: earlier,v :: rest) else run descending v (previous :: earlier) rest := by
        rw [run,ordered]
        rfl
      rw [compared] at ran
      split at ran
      · obtain ⟨rfl,rfl⟩ := Prod.mk.inj (Except.ok.inj ran)
        exact ⟨rfl,nofun,fun x member => .inl member⟩
      · obtain ⟨whole,some,kinds⟩ := ih (fun x member => numbers x (List.mem_cons_of_mem _ member)) ran
        refine ⟨by simpa using whole,some,?_⟩
        intro x member
        rcases kinds x member with earlier | alike
        · rcases List.mem_cons.mp earlier with rfl | earlier
          · exact .inr beside
          · exact .inl earlier
        · exact .inr (alike.trans beside)

theorem place_compares {low high k : Nat} (wide : low < high) (inside : high ≤ sorted.size) (found : place v sorted low high = .ok k) :
    ∃ x ∈ sorted.toList, ∃ o, Order.order v x = .ok o := by
  rw [place,if_pos wide] at found
  obtain ⟨o,ordered,_⟩ := ok_of_bind found
  have middle : low + (high - low) / 2 < sorted.size := by omega
  refine ⟨_,?_,o,ordered⟩
  rw [Array.getElem?_eq_getElem middle]
  exact Array.getElem_mem_toList middle

/-- A value is compared with one of those that it is inserted among. -/
theorem insert_alike {grown : Array Value} (numbers : ∀ x ∈ v :: sorted.toList, x ≠ .number .nan) (wide : 0 < sorted.size)
    (inserted : insert sorted v = .ok grown) : (∃ x ∈ sorted.toList, Alike v x) ∧ ∀ x ∈ grown.toList, x = v ∨ x ∈ sorted.toList := by
  obtain ⟨k,found,same⟩ := ok_of_bind inserted
  obtain rfl := Except.ok.inj same
  constructor
  · obtain ⟨x,member,o,ordered⟩ := place_compares wide (Nat.le_refl _) found
    exact ⟨x,member,alike_of_order (numbers v List.mem_cons_self) (numbers x (List.mem_cons_of_mem _ member)) ordered⟩
  · intro x inside
    unfold Array.insertIdxIfInBounds at inside
    split at inside
    · rw [Array.toList_insertIdx] at inside
      exact List.eq_or_mem_of_mem_insertIdx inside
    · exact .inr inside

theorem insert_size {grown : Array Value} (inserted : insert sorted v = .ok grown) : sorted.size ≤ grown.size := by
  obtain ⟨k,_,same⟩ := ok_of_bind inserted
  obtain rfl := Except.ok.inj same
  unfold Array.insertIdxIfInBounds
  split
  · simp
  · exact Nat.le_refl _

theorem foldlM_insert_alike {grown : Array Value} {a : Value} (numbers : ∀ x ∈ sorted.toList ++ ws, x ≠ .number .nan)
    (kind : ∀ x ∈ sorted.toList, Alike x a) (wide : 0 < sorted.size) (inserted : ws.foldlM insert sorted = .ok grown) :
    ∀ x ∈ ws, Alike x a := by
  induction ws generalizing sorted with
  | nil => nofun
  | cons v rest ih =>
    obtain ⟨next,first,later⟩ := ok_of_bind inserted
    have among : ∀ x ∈ v :: sorted.toList, x ≠ .number .nan := by
      intro x member
      refine numbers x ?_
      simp only [List.mem_cons,List.mem_append] at member ⊢
      tauto
    obtain ⟨⟨x,member,beside⟩,grows⟩ := insert_alike among wide first
    have here : Alike v a := beside.trans (kind x member)
    have wide' : 0 < next.size := by
      have grows := insert_size first
      omega
    have numbers' : ∀ x ∈ next.toList ++ rest, x ≠ .number .nan := by
      intro x member
      rcases List.mem_append.mp member with member | later
      · exact among x (List.mem_cons.mpr (grows x member))
      · exact numbers x (by simp [later])
    have kind' : ∀ x ∈ next.toList, Alike x a := by
      intro x member
      rcases grows x member with rfl | old
      · exact here
      · exact kind x old
    intro x member
    rcases List.mem_cons.mp member with rfl | member
    · exact here
    · exact ih numbers' kind' wide' later x member

/-- Two values or more that are sorted are of one kind. -/
theorem alike_of_sort {first second : Value} {rest sorted : List Value} (numbers : ∀ x ∈ first :: second :: rest, x ≠ .number .nan)
    (done : sort (first :: second :: rest) = .ok sorted) : ∀ x ∈ first :: second :: rest, ∀ y ∈ first :: second :: rest, Alike x y := by
  obtain ⟨o,ordered,done⟩ := ok_of_bind done
  have beside : Alike second first := alike_of_order (numbers second (by simp)) (numbers first (by simp)) ordered
  obtain ⟨⟨start,left⟩,ran,done⟩ := ok_of_bind done
  obtain ⟨grown,inserted,_⟩ := ok_of_bind done
  obtain ⟨whole,some,kinds⟩ := run_alike (fun x member => numbers x (List.mem_cons_of_mem _ member)) ran
  have given : start.reverse ++ left = first :: second :: rest := by simpa using whole
  have started : ∀ x ∈ start, Alike x first := by
    intro x member
    rcases kinds x member with old | alike
    · rcases List.mem_pair.mp old with rfl | rfl
      · exact beside
      · exact beside.symm.trans beside
    · exact alike.trans beside
  obtain ⟨begun,same⟩ : ∃ begun, (if o == .lt then start else start.reverse) = begun := ⟨_,rfl⟩
  have members : ∀ x, x ∈ begun ↔ x ∈ start := by
    intro x
    rw [← same]
    split <;> simp
  have inserted' : left.foldlM insert begun.toArray = .ok grown := same ▸ inserted
  have ended : ∀ x ∈ left, Alike x first := by
    refine foldlM_insert_alike ?_ ?_ ?_ inserted'
    · intro x member
      refine numbers x ?_
      rw [← given]
      simpa [members] using member
    · simpa [members] using started
    · obtain ⟨x,member⟩ := List.exists_mem_of_ne_nil start some
      exact List.length_pos_of_mem ((members x).mpr member)
  have kind : ∀ x ∈ first :: second :: rest, Alike x first := by
    intro x member
    rw [← given] at member
    rcases List.mem_append.mp member with early | late
    · exact started x (List.mem_reverse.mp early)
    · exact ended x late
  exact fun x here y there => (kind x here).trans (kind y there).symm

end Place

/-! ## Extremes and the functions -/

section Extreme

variable {op : CompareOp} {o : Ordering} {best : Value} {vs : List Value}

theorem rank_self (v : Value) : rank v v = .eq := by
  have swapped := rank_swap v v
  cases position : rank v v with
  | eq => rfl
  | lt | gt =>
    rw [position] at swapped
    cases swapped

/-- Of values of one kind, the one left over is not passed by any. -/
theorem foldlM_extreme (strict : o ≠ .eq) (asks : ∀ {a b}, Alike a b → Operators.compare op a b = .ok (rank a b == o))
    (alike : ∀ x ∈ best :: vs, ∀ y ∈ best :: vs, Alike x y) :
    ∃ m ∈ best :: vs, vs.foldlM (fun best v => do return if ← Operators.compare op v best then v else best) best = .ok m ∧
      ∀ x ∈ best :: vs, rank x m ≠ o := by
  induction vs generalizing best with
  | nil =>
    refine ⟨best,List.mem_cons_self,rfl,?_⟩
    intro x member
    obtain rfl := List.mem_singleton.mp member
    rw [rank_self]
    exact strict.symm
  | cons v rest ih =>
    have beside : Alike v best := alike v (by simp) best (by simp)
    obtain ⟨next,chosen⟩ : ∃ next, (if rank v best == o then v else best) = next := ⟨_,rfl⟩
    have among : ∀ x ∈ next :: rest, x ∈ best :: v :: rest := by
      intro x member
      rcases List.mem_cons.mp member with rfl | later
      · rw [← chosen]
        split <;> simp
      · simp [later]
    have passed : ∀ x ∈ [best,v], rank x next ≠ o := by
      intro x member
      rw [← chosen]
      by_cases passes : rank v best = o
      · rw [passes,beq_self_eq_true,if_pos rfl]
        rcases List.mem_pair.mp member with rfl | rfl
        · rw [rank_swap,passes]
          cases o with
          | eq => exact absurd rfl strict
          | lt | gt => nofun
        · rw [rank_self]
          exact strict.symm
      · rw [if_neg (by simpa using passes)]
        rcases List.mem_pair.mp member with rfl | rfl
        · rw [rank_self]
          exact strict.symm
        · exact passes
    obtain ⟨m,member,folded,most⟩ := ih fun x here y there => alike x (among x here) y (among y there)
    refine ⟨m,among m member,?_,?_⟩
    · rw [List.foldlM_cons,asks beside]
      show rest.foldlM _ (if rank v best == o then v else best) = _
      rw [chosen]
      exact folded
    · intro x inside
      have first {x : Value} (old : x ∈ [best,v]) : rank x m ≠ o := by
        have held : x ∈ best :: v :: rest := by
          rcases List.mem_pair.mp old with rfl | rfl <;> simp
        have kept : next ∈ best :: v :: rest := among next List.mem_cons_self
        exact (alike x held next kept).not_rank_trans (alike next kept m (among m member)) strict (passed x old)
          (most next List.mem_cons_self)
      rcases List.mem_cons.mp inside with rfl | inside
      · exact first (by simp)
      · rcases List.mem_cons.mp inside with rfl | later
        · exact first (by simp)
        · exact most x (List.mem_cons_of_mem _ later)

theorem extreme_alike (strict : o ≠ .eq) (asks : ∀ {a b}, Alike a b → Operators.compare op a b = .ok (rank a b == o)) (some : vs ≠ [])
    (alike : ∀ x ∈ vs, ∀ y ∈ vs, Alike x y) : ∃ m ∈ vs, extreme op vs = .ok (.some m) ∧ ∀ x ∈ vs, rank x m ≠ o := by
  cases vs with
  | nil => exact absurd rfl some
  | cons first rest =>
    obtain ⟨m,member,folded,most⟩ := foldlM_extreme strict asks alike
    refine ⟨m,member,?_,most⟩
    rw [extreme,folded]
    rfl

end Extreme

section Functions

variable {host : Host} {id : Identity} {xs sorted : List Value} {s : Store}

/-- All values are numbers, or all are texts. -/
def OneKind (xs : List Value) : Prop := (∀ v ∈ xs, ∃ n, v = .number n) ∨ (∀ v ∈ xs, ∃ t, v = .text t)

/-- The given values in an order in which no later one is less than an earlier one, equal ones in the order in which they were
given. -/
structure Sorts (given sorted : List Value) : Prop where
  perm : sorted.Perm given
  ascending : sorted.Pairwise fun earlier later => Operators.compare .less later earlier = .ok false
  stable : ∀ w, sorted.filter (Value.equal w) = given.filter (Value.equal w)

theorem OneKind.alike (numbers : ∀ v ∈ xs, v ≠ .number .nan) (kind : OneKind xs) : ∀ x ∈ xs, ∀ y ∈ xs, Alike x y := by
  intro x first y second
  rcases kind with all | all
  · have number {n : Number} (member : .number n ∈ xs) : n.isNaN = false := by
      cases n with
      | nan => exact absurd rfl (numbers _ member)
      | _ => rfl
    obtain ⟨m,rfl⟩ := all x first
    obtain ⟨n,rfl⟩ := all y second
    exact .numbers (number first) (number second)
  · obtain ⟨p,rfl⟩ := all x first
    obtain ⟨q,rfl⟩ := all y second
    exact .texts p q

theorem oneKind_of_alike {x : Value} (alike : ∀ y ∈ xs, Alike x y) (member : x ∈ xs) : OneKind xs := by
  cases alike x member with
  | numbers =>
    refine .inl fun y there => ?_
    cases alike y there
    exact ⟨_,rfl⟩
  | texts =>
    refine .inr fun y there => ?_
    cases alike y there
    exact ⟨_,rfl⟩

theorem Arranges.sorts (arranges : Arranges xs sorted) : Sorts xs sorted := by
  refine ⟨arranges.perm,arranges.ascending.ordered.imp_of_mem ?_,arranges.stable⟩
  intro x y first second not_above
  rw [(arranges.ascending.alike y second x first).compare.1]
  have not_below : rank y x ≠ .lt := mt rank_lt_comm.mp not_above
  cases position : rank y x with
  | lt => exact absurd position not_below
  | eq | gt => rfl

/-- A list is sorted just if it has one value at most or its values are of one kind. -/
theorem sort_ok_iff (numbers : ∀ v ∈ xs, v ≠ .number .nan) : (∃ sorted, sort xs = .ok sorted) ↔ xs.length ≤ 1 ∨ OneKind xs := by
  constructor
  · rintro ⟨sorted,done⟩
    match xs with
    | [] | [_] => exact .inl (by simp)
    | first :: second :: rest => exact .inr (oneKind_of_alike (alike_of_sort numbers done first (by simp)) (by simp))
  · rintro (short | kind)
    · match xs with
      | [] => exact ⟨[],rfl⟩
      | [v] => exact ⟨[v],rfl⟩
    · obtain ⟨sorted,done,_⟩ := sort_alike (kind.alike numbers)
      exact ⟨sorted,done⟩

theorem sorts_of_sort (numbers : ∀ v ∈ xs, v ≠ .number .nan) (done : sort xs = .ok sorted) : Sorts xs sorted := by
  rcases (sort_ok_iff numbers).mp ⟨sorted,done⟩ with short | kind
  · match xs with
    | [] =>
      obtain rfl := Except.ok.inj done
      exact ⟨.refl _,.nil,fun _ => rfl⟩
    | [v] =>
      obtain rfl := Except.ok.inj done
      exact ⟨.refl _,List.pairwise_singleton ..,fun _ => rfl⟩
  · obtain ⟨found,again,arranges⟩ := sort_alike (kind.alike numbers)
    obtain rfl : found = sorted := Except.ok.inj (again.symm.trans done)
    exact arranges.sorts

/-- Without undefined values none is put last. -/
theorem sorted_defined (defined : ∀ v ∈ xs, v ≠ .undefined) : Order.sorted xs = sort xs := by
  have apart : ∀ v ∈ xs, isUndefined v = false := by
    intro v member
    cases v with
    | undefined => exact absurd rfl (defined _ member)
    | _ => rfl
  have all : xs.filter (fun v => !isUndefined v) = xs := List.filter_eq_self.mpr fun v member => by simp [apart v member]
  have none : xs.filter isUndefined = [] := List.filter_eq_nil_iff.mpr fun v member => by simp [apart v member]
  rw [Order.sorted,all,none]
  cases sort xs with
  | ok sorted => exact congrArg Except.ok sorted.append_nil
  | error => rfl

theorem sorted_run {keyword : Pairs} (done : Order.sorted xs = .ok sorted) : Runs (Functions.call host .sorted [.list id xs] keyword) s
    (.ok (.list s.nextIdentity (if (Functions.keywordArgument keyword "reverse").isTruthy then sorted.reverse else sorted))) (s.issued 1) := by
  have found : Functions.sorted [.list id xs] keyword =
      .ok (if (Functions.keywordArgument keyword "reverse").isTruthy then sorted.reverse else sorted) := by
    show (Order.sorted xs >>= _) = _
    rw [done]
    rfl
  exact (StoreM.check_run found).bind StoreM.compute_list_run

theorem extreme_run {f : Builtin} {op : CompareOp} {m : Value} (most : extreme op xs = .ok (some m)) :
    Runs (StoreM.check (Functions.extreme f op [.list id xs])) s (.ok m) s := by
  refine StoreM.check_run ?_
  show (extreme op xs >>= _) = _
  rw [most]
  rfl

theorem index?_first {v : Value} {vs : List Value} : Sequence.index? (.list id (v :: vs)) (.ofInt 0) = some (.ok v) := by
  have whole : (Number.ofInt 0).int? = some 0 := Number.int?_ofInt (Number.exact_of_le (by decide))
  have place : Sequence.position (.number (.ofInt 0)) (v :: vs).length = .ok 0 := by
    have inside : ¬ ((vs.length : Int) + 1 ≤ 0) := by omega
    simp [Sequence.position,whole,inside]
  rw [Sequence.index?,Value.ofInt,place]
  rfl

theorem index?_last {v : Value} {vs : List Value} : Sequence.index? (.list id (vs ++ [v])) (.ofInt (-1)) = some (.ok v) := by
  have whole : (Number.ofInt (-1)).int? = some (-1) := Number.int?_ofInt (Number.exact_of_le (by decide))
  have place : Sequence.position (.number (.ofInt (-1))) (vs ++ [v]).length = .ok vs.length := by
    have before : (-1 : Int) + (vs.length + 1 : Nat) = vs.length := by omega
    have inside : ¬ ((vs.length : Int) < 0 ∨ ((vs.length + 1 : Nat) : Int) ≤ vs.length) := by omega
    simp only [Sequence.position,whole,List.length_append,List.length_singleton,if_pos (show (-1 : Int) < 0 by decide),before,
      Bool.or_eq_true,decide_eq_true_eq]
    rw [if_neg inside,Int.toNat_natCast]
  rw [Sequence.index?,Value.ofInt,place]
  simp

/-- The ends of the values in order are the extremes. -/
theorem Arranges.ends (arranges : Arranges xs sorted) (some : xs ≠ []) : ∃ least greatest first last,
    extreme .less xs = .ok (.some least) ∧ extreme .greater xs = .ok (.some greatest) ∧
    Sequence.index? (.list id sorted) (.ofInt 0) = .some (.ok first) ∧
    Sequence.index? (.list id sorted) (.ofInt (-1)) = .some (.ok last) ∧
    Value.equal least first = true ∧ Value.equal greatest last = true := by
  have alike : ∀ x ∈ xs, ∀ y ∈ xs, Alike x y := fun x here y there =>
    arranges.ascending.alike x (arranges.perm.mem_iff.mpr here) y (arranges.perm.mem_iff.mpr there)
  have same {x y : Value} (alike : Alike x y) (not_below : rank x y ≠ .lt) (not_above : rank x y ≠ .gt) : Value.equal x y = true := by
    rw [alike.compare.2.2]
    cases position : rank x y with
    | eq => rfl
    | lt => exact absurd position not_below
    | gt => exact absurd position not_above
  obtain ⟨least,least_member,least_found,lowest⟩ := extreme_alike (o := .lt) nofun (fun beside => beside.compare.1) some alike
  obtain ⟨greatest,greatest_member,greatest_found,highest⟩ := extreme_alike (o := .gt) nofun (fun beside => beside.compare.2.1) some alike
  have ordered := arranges.ascending.ordered
  have within {x : Value} : x ∈ sorted ↔ x ∈ xs := arranges.perm.mem_iff
  have filled : sorted ≠ [] := fun empty => some (List.nil_perm.mp (empty ▸ arranges.perm))
  obtain ⟨first,after,front⟩ := List.exists_cons_of_ne_nil filled
  obtain ⟨before,last,back⟩ : ∃ before last, sorted = before ++ [last] := ⟨_,_,(List.dropLast_append_getLast filled).symm⟩
  have first_member : first ∈ xs := within.mp (by simp [front])
  have last_member : last ∈ xs := within.mp (by simp [back])
  refine ⟨least,greatest,first,last,least_found,greatest_found,front ▸ index?_first,back ▸ index?_last,?_,?_⟩
  · have lower : rank first least ≠ .gt := by
      rw [front] at ordered within
      rcases List.mem_cons.mp (within.mpr least_member) with rfl | later
      · rw [rank_self]
        nofun
      · exact (List.pairwise_cons.mp ordered).1 least later
    exact same (alike least least_member first first_member) (mt rank_lt_comm.mp lower)
      (mt rank_lt_comm.mpr (lowest first first_member))
  · have upper : rank greatest last ≠ .gt := by
      rw [back] at ordered within
      rcases List.mem_append.mp (within.mpr greatest_member) with earlier | here
      · exact (List.pairwise_append.mp ordered).2.2 greatest earlier last List.mem_cons_self
      · rw [List.mem_singleton.mp here,rank_self]
        nofun
    exact same (alike greatest greatest_member last last_member) (mt rank_lt_comm.mp (highest last last_member)) upper

/-- For a list without undefined values and not-a-numbers, sorting succeeds just if it has one value at most or its values are all
numbers or all texts. The list that it gives sorts the given one and reversed is that the other way round; and of numbers or of texts,
if there are any, the least and the greatest value equal its first and its last one. -/
theorem sorted_agrees (defined : ∀ v ∈ xs, v ≠ .undefined) (numbers : ∀ v ∈ xs, v ≠ .number .nan) :
    ((∃ v t, Runs (Functions.call host .sorted [.list id xs] []) s (.ok v) t) ↔ xs.length ≤ 1 ∨ OneKind xs) ∧
    ∀ v t, Runs (Functions.call host .sorted [.list id xs] []) s (.ok v) t → ∃ sorted, v = .list s.nextIdentity sorted ∧
      Sorts xs sorted ∧
      Runs (Functions.call host .sorted [.list id xs] [("reverse",.bool true)]) s (.ok (.list s.nextIdentity sorted.reverse)) t ∧
      (xs ≠ [] → OneKind xs → ∃ least greatest first last, Runs (Functions.call host .min [.list id xs] []) s (.ok least) s ∧
        Runs (Functions.call host .max [.list id xs] []) s (.ok greatest) s ∧
        Sequence.index? v (.ofInt 0) = some (.ok first) ∧ Sequence.index? v (.ofInt (-1)) = some (.ok last) ∧
        Value.equal least first = true ∧ Value.equal greatest last = true) := by
  have found {v : Value} {t : Store} (run : Runs (Functions.call host .sorted [.list id xs] []) s (.ok v) t) :
      ∃ sorted, sort xs = .ok sorted := by
    obtain ⟨_,_,checked,_⟩ := run.bind_ok
    have read : Order.sorted xs >>= _ = .ok _ := StoreM.check_ok checked
    obtain ⟨ascending,done,_⟩ := ok_of_bind read
    exact ⟨ascending,sorted_defined defined ▸ done⟩
  refine ⟨⟨?_,?_⟩,?_⟩
  · rintro ⟨v,t,run⟩
    exact (sort_ok_iff numbers).mp (found run)
  · intro kind
    obtain ⟨sorted,done⟩ := (sort_ok_iff numbers).mpr kind
    exact ⟨_,_,sorted_run ((sorted_defined defined).trans done)⟩
  · intro v t run
    obtain ⟨sorted,done⟩ := found run
    have whole : Order.sorted xs = .ok sorted := (sorted_defined defined).trans done
    obtain ⟨same,rfl⟩ := run.unique (sorted_run whole)
    obtain rfl := Except.ok.inj same
    refine ⟨sorted,rfl,sorts_of_sort numbers done,sorted_run whole,?_⟩
    intro some kind
    obtain ⟨again,found,arranges⟩ := sort_alike (kind.alike numbers)
    obtain rfl : again = sorted := Except.ok.inj (found.symm.trans done)
    obtain ⟨least,greatest,first,last,lowest,highest,front,back,ends⟩ := arranges.ends some
    exact ⟨least,greatest,first,last,extreme_run lowest,extreme_run highest,front,back,ends⟩

/-- Zeros of both signs are sorted between the infinities. -/
theorem sorted_zeros : ∃ sorted t, Runs (Functions.call (.bare [] "/") .sorted
      [.list 0 [.number (.infinite false),.number .zero,.number .negZero,.number (.infinite true)]] []) (.empty 1) (.ok (.list 1 sorted)) t ∧
    Sorts [.number (.infinite false),.number .zero,.number .negZero,.number (.infinite true)] sorted := by
  have agrees := @sorted_agrees (.bare [] "/") 0 [.number (.infinite false),.number .zero,.number .negZero,.number (.infinite true)]
    (.empty 1) (by simp) (by simp [Number.zero])
  obtain ⟨v,t,run⟩ := agrees.1.mpr (.inr (.inl (by simp)))
  obtain ⟨sorted,rfl,sorts,_⟩ := agrees.2 v t run
  exact ⟨sorted,t,run,sorts⟩

end Functions

end ConfTree.Order
