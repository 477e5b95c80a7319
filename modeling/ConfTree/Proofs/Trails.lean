import Mathlib.Data.List.Destutter
import ConfTree.Configuration
import ConfTree.Proofs.Discipline

/-!
# Trails

What becomes of a fault that is located again and again. The first place stays its location and opens its message; of the
later ones the trail keeps the addresses other than that of the location, and of equal ones that then stand side by side only
the first (`passed`). The same holds of a fault in the store that is located at nodes, whatever is done in between that leaves
the fault alone (`Store.Passes`).
-/
namespace ConfTree

namespace Fault

variable {first : Location} {before : List Text} {last : Text}

/-- The fault after it was located at one place after another. -/
def locateAll (f : Fault) (places : List Location) : Fault := places.foldl (fun f l => f.locate l.address l.kind) f

/-- What a trail keeps of addresses: those other than the first one, runs of equal neighbours collapsed to one. -/
def passed (first : Text) (addresses : List Text) : List Text := (addresses.filter (· ≠ first)).destutter (· ≠ ·)

/-- The message of a fault whose cause has a given message, located at a place. -/
def located (place : Location) (message : Text) : Text :=
  .concat [place.kind," '",displayAddress place.address,"': ",message]

section Places

variable {cause : Cause} {address kind : Text}

theorem locate_same (same : address = first.address) (trail : List Text) :
    (⟨cause,some first,trail⟩ : Fault).locate address kind = ⟨cause,some first,trail⟩ := by
  simp [locate,same]

theorem locate_repeated : (⟨cause,some first,before ++ [address]⟩ : Fault).locate address kind = ⟨cause,some first,before ++ [address]⟩ := by
  simp [locate]

theorem locate_further {trail : List Text} (apart : address ≠ first.address) (moved : trail.getLast? ≠ some address) :
    (⟨cause,some first,trail⟩ : Fault).locate address kind = ⟨cause,some first,trail ++ [address]⟩ := by
  simp [locate,moved,Ne.symm apart]

theorem locateAll_cons (f : Fault) (place : Location) (rest : List Location) :
    f.locateAll (place :: rest) = (f.locate place.address place.kind).locateAll rest := rfl

/-- A trail that ends with an address goes on with what differs from it. -/
theorem locateAll_on (before : List Text) (places : List Location) : (⟨cause,some first,before ++ [last]⟩ : Fault).locateAll places =
    ⟨cause,some first,before ++ ((places.map Location.address).filter (· ≠ first.address)).destutter' (· ≠ ·) last⟩ := by
  induction places generalizing before last with
  | nil => rfl
  | cons place rest ih =>
    rw [locateAll_cons,List.map_cons]
    by_cases back : place.address = first.address
    · rw [locate_same back,ih,List.filter_cons_of_neg (by simpa using back)]
    · rw [List.filter_cons_of_pos (by simpa using back)]
      by_cases still : last = place.address
      · rw [still,locate_repeated,ih,List.destutter'_cons_neg _ (not_not.mpr rfl)]
      · rw [locate_further back (by simpa using still),ih,List.destutter'_cons_pos _ still,List.append_assoc]
        rfl

/-- A fault that was located and has no trail yet gets the trail that its later places leave. -/
theorem locateAll_located (places : List Location) :
    (⟨cause,some first,[]⟩ : Fault).locateAll places = ⟨cause,some first,passed first.address (places.map Location.address)⟩ := by
  induction places with
  | nil => rfl
  | cons place rest ih =>
    rw [locateAll_cons,List.map_cons,passed]
    by_cases back : place.address = first.address
    · rw [locate_same back,ih,passed,List.filter_cons_of_neg (by simpa using back)]
    · rw [locate_further back (by simp),List.filter_cons_of_pos (by simpa using back),List.destutter_cons']
      exact locateAll_on [] rest

end Places

end Fault

/-! ## Faults in the store -/

/-- Work from the first store to the second in the course of which a fault is located at some places, and is left alone
otherwise. -/
inductive Store.Passes (fault : FaultId) : Store → List Location → Store → Prop
  | start (s : Store) : Passes fault s [] s
  | aside {s t u : Store} {places : List Location} (same : t.faults[fault]? = s.faults[fault]?) (rest : Passes fault t places u) :
      Passes fault s places u
  | located {s t u : Store} {id : NodeId} {name : Text} {places : List Location} (named : s.name id = .ok name)
      (run : Runs (StoreM.locate fault id) s (.ok ()) t) (rest : Passes fault t places u) :
      Passes fault s (⟨name,(s.kind id).name⟩ :: places) u

theorem Store.Passes.fault {s t : Store} {fault : FaultId} {places : List Location} (passes : s.Passes fault places t) :
    t.faults[fault]? = s.faults[fault]?.map (·.locateAll places) := by
  induction passes with
  | start s => simp [Fault.locateAll]
  | aside same _ ih => rw [ih,same]
  | located named run _ ih =>
    obtain ⟨_,rfl⟩ := Runs.unique run (StoreM.locate_run fault named)
    rw [ih,Array.getElem?_modify,if_pos rfl,Option.map_map]
    rfl

/-- A fault can be located at any nodes that have names. -/
theorem Store.Passes.of_names (fault : FaultId) {s : Store} {names : NodeId → Text} {ids : List NodeId}
    (named : ∀ id ∈ ids, s.name id = .ok (names id)) :
    ∃ t, s.Passes fault (ids.map fun id => ⟨names id,(s.kind id).name⟩) t := by
  induction ids generalizing s with
  | nil => exact ⟨s,.start s⟩
  | cons id rest ih =>
    obtain ⟨here,there⟩ := List.forall_mem_cons.mp named
    have run := StoreM.locate_run fault here
    have alike : s.Alike { s with faults := s.faults.modify fault (·.locate (names id) (s.kind id).name) } := ⟨rfl,rfl⟩
    obtain ⟨t,passes⟩ := ih fun id member => (alike.name id).trans (there id member)
    exact ⟨t,.located here run passes⟩

/-- A sequence with an item, after a fault was reported. -/
def Store.faulted (cause : Cause) : Store :=
  { Store.empty 0 with
    nodes := #[.fresh (.sequence [1] [1] false),{ Node.fresh (.scalar .null none) with parent := some 0 }]
    faults := #[.ofCause cause] }

/-- A fault that is located at one place after another: the first place is its location from then on and opens its message once,
and its trail is what the later addresses leave. So it is with a fault of the store, however often it is thrown again. -/
theorem Fault.located_once (cause : Cause) (first : Location) (later : List Location) :
    (ofCause cause).locateAll (first :: later) = ⟨cause,some first,passed first.address (later.map Location.address)⟩ ∧
      ((ofCause cause).locateAll (first :: later)).message = located first (ofCause cause).message ∧
      ∀ (s t : Store) (fault : FaultId), s.faults[fault]? = some (ofCause cause) → s.Passes fault (first :: later) t →
        t.faults[fault]? = some ⟨cause,some first,passed first.address (later.map Location.address)⟩ := by
  have closed : (ofCause cause).locateAll (first :: later) =
      ⟨cause,some first,passed first.address (later.map Location.address)⟩ := locateAll_located later
  refine ⟨closed,by rw [closed]; rfl,fun s t fault reported passes => ?_⟩
  rw [passes.fault,reported,Option.map_some,closed]

/-- A fault that is located at the item, twice at the sequence, and at the item again. -/
theorem Fault.located_once_listed (cause : Cause) : ∃ t,
    (Store.faulted cause).Passes 0 [⟨"0","scalar"⟩,⟨"","sequence"⟩,⟨"","sequence"⟩,⟨"0","scalar"⟩] t ∧
      t.faults[0]? = some ⟨cause,some ⟨"0","scalar"⟩,[""]⟩ := by
  have named : ∀ id ∈ [1,0,0,1], (Store.faulted cause).name id = .ok (if id = 1 then "0" else "") := by
    simp only [List.mem_cons,List.not_mem_nil,or_false,forall_eq_or_imp,forall_eq]
    exact ⟨rfl,rfl,rfl,rfl⟩
  obtain ⟨t,passes⟩ := Store.Passes.of_names 0 named
  exact ⟨t,passes,(Fault.located_once cause _ _).2.2 _ _ _ rfl passes⟩

end ConfTree
