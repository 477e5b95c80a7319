import Mathlib.Data.List.Nodup
import ConfTree.Proofs.Creation
import ConfTree.Proofs.Overrides.Reading

/-!
The law of overrides: a configuration of plain content is resolved to its content edited at the targets,
from the fewest path steps to the most, and the overrides that match nothing are those the edit ignores
(`resolve_edits`).
-/
namespace ConfTree

open StoreM

variable {settings : Settings} {s t : Store} {overrides ordered : List Override}

namespace Overrides

theorem conflicts_eq_nil {targets : List Text} : conflicts targets = [] ↔ targets.Nodup := by
  rw [conflicts,List.filter_eq_nil_iff,List.nodup_iff_count_le_one]
  constructor
  · intro none t
    by_cases member : t ∈ targets
    · have single := none t (List.mem_eraseDups.mpr member)
      simpa using single
    · rw [List.count_eq_zero.mpr member]
      exact Nat.zero_le 1
  · intro single t _
    simpa using single t

/-- Overrides that are accepted were never used, and no two of them have one target. -/
theorem accepted_of_ofInputs {host : Host} {calls : Calls} {inputs : List Value} {overrides : List Override} {s t : Store}
    (run : Runs (ofInputs host calls inputs) s (.ok overrides) t) :
    (∀ o ∈ overrides, o.uses = 0) ∧ (overrides.map Override.target).Nodup := by
  obtain ⟨given,u,_,rest⟩ := Runs.bind_ok run
  dsimp only at rest
  split at rest
  case isTrue =>
    obtain ⟨_,_,thrown,_⟩ := Runs.bind_ok rest
    exact absurd thrown throwCause_fails
  case isFalse clear =>
    obtain ⟨same,_⟩ := Runs.pure_iff.mp rest
    obtain rfl := Except.ok.inj same
    have distinct := conflicts_eq_nil.mp (by simpa using clear)
    refine ⟨fun o member => ?_,?_⟩
    · obtain ⟨p,_,rfl⟩ := List.mem_map.mp member
      rfl
    · simpa [Function.comp_def,List.map_flatten] using distinct

end Overrides

/-- Which value replaces a path does not depend on the order of overrides that differ in their targets. -/
theorem Overrides.replacement_perm (same : ordered.Perm overrides) (distinct : (overrides.map Override.target).Nodup) :
    replacement ordered = replacement overrides := by
  funext path
  rw [replacement,replacement]
  congr 1
  rcases found : overrides.find? fun o => o.path == path with _ | o
  · rw [found,List.find?_eq_none]
    exact fun o member => List.find?_eq_none.mp found o (same.mem_iff.mp member)
  · have here : o.path = path := by simpa using List.find?_some found
    have member := List.mem_of_find?_eq_some found
    rcases again : ordered.find? fun o => o.path == path with _ | p
    · exact absurd (beq_iff_eq.mpr here) (List.find?_eq_none.mp again o (same.mem_iff.mpr member))
    · have there : p.path = path := by simpa using List.find?_some again
      have among := same.mem_iff.mp (List.mem_of_find?_eq_some again)
      rw [found,again,List.inj_on_of_nodup_map distinct among member (path_injective (there.trans here.symm))]

/-- The overrides left unused are those an edit ignores, when the used ones are those the edited content has a part for. -/
theorem Overrides.unused_eq_ignored {used : List Text → Prop} {after : List Override} {content : Value}
    (counted : Counted used overrides after) (fresh : ∀ o ∈ overrides, o.uses = 0) (order : ordered.Perm overrides)
    (distinct : (ordered.map Override.target).Nodup) (descending : Descending ordered)
    (use : ∀ o ∈ overrides, used o.path ↔ ((edited content ordered).at? o.path).isSome) :
    unused after = (overrides.filter fun o => decide (o.target ∈ ignored content ordered)).map Override.target := by
  classical
  rw [counted.unused fresh]
  congr 1
  refine List.filter_congr fun o member => ?_
  rw [← decide_not]
  refine decide_eq_decide.mpr ?_
  rw [mem_ignored descending distinct (order.mem_iff.mpr member),use o member,Bool.not_eq_true]

/-- The store of a configuration whose content was built but not read. -/
structure Created (settings : Settings) (overrides : List Override) (raw : Value) (p : Plot) (s : Store) : Prop where
  start : Start settings (Overrides.replacement overrides) [] 0 p s
  value : p.value = raw
  root : s.session.root = p.root
  alone : (s.node p.root).parent = none
  unreported : s.session.isReported = false
  registered : s.session.overrides = overrides

/-- A configuration of plain content can be made when its settings, names and overrides are accepted. -/
theorem createWith_run (host : Host) (depth : Nat) {options : Options} {raw : Value} {context : Registry} {next : Identity}
    (settings_accepted : Settings.ofOptions options.settings = .ok settings)
    (context_accepted : Configuration.bindAll options.registry options.context = .ok context)
    (accepted : Runs (Overrides.ofInputs host (Calls.ofDepth host depth) options.overrides)
      ((Store.empty next).inSession fun session => { session with settings, context }) (.ok overrides) s)
    (plain : raw.isPlain settings = true) (values : ∀ o ∈ overrides, o.value.isPlain settings = true) :
    ∃ t p, Runs (Configuration.createWith host (Calls.ofDepth host depth) options raw) (Store.empty next) (.ok ()) t ∧
      Created settings overrides raw p t := by
  obtain ⟨_,session⟩ := Blank.ofInputs accepted rfl
  obtain ⟨t,root,build,grown,planted,size,alone,_⟩ := build_run plain .empty s
  obtain ⟨u,u_eq⟩ : ∃ u, u = (t.inSession fun session => { session with overrides, loader := options.loader }).rootedAt root := ⟨_,rfl⟩
  have here : u.node root = { t.node root with isBound := true } := by
    rw [u_eq]
    exact Store.node_update_self (by show root < t.nodes.size; omega)
  have other (id : Nat) (differ : id ≠ root) : u.node id = t.node id := by
    rw [u_eq]
    exact Store.node_update_ne differ
  have blank := planted.blank
  have u_size : u.nodes.size = t.nodes.size := by simp [u_eq,Store.rootedAt]
  refine ⟨u,⟨s.nodes.size,root,raw⟩,?run,
    ⟨⟨?planted,?idle,?anchored,?room,plain,nofun,⟨?settings,?overrides,?plain⟩⟩,rfl,?root,?alone,?unreported,?registered⟩⟩
  case run =>
    rw [u_eq]
    exact createWith_of_build settings_accepted context_accepted accepted build
  case planted =>
    refine planted.reroot (by omega) (fun id _ differ => other id differ) ?_ ?_
    · rw [here]
      exact ⟨blank.live,blank.shown,blank.optional,blank.untyped,blank.untransformed,blank.pending⟩
    · rw [here]
  case idle =>
    intro id holds
    by_cases same : id = root
    · rw [same,here]
      exact grown.idle root planted.least
    · rw [other id same]
      exact grown.idle id holds.1
  case anchored =>
    intro v _ parent bound live
    refine .root live ?_ ?_
    · rw [parent,here]
      exact alone
    · rw [bound,here]
  case room =>
    show 0 + (root + 1 - s.nodes.size) ≤ u.nodes.size
    omega
  case alone =>
    show (u.node root).parent = none
    rw [here]
    exact alone
  case settings => rw [u_eq]; exact congrArg Session.settings (grown.session.trans session)
  case unreported => rw [u_eq]; exact congrArg Session.isReported (grown.session.trans session)
  case overrides => rw [u_eq]; rfl
  case plain => rw [u_eq]; exact values
  case root => rw [u_eq]; rfl
  case registered => rw [u_eq]; rfl

/-- What overrides do, to any plain content: it is resolved to the content that is left when each target, from
the fewest path steps to the most, is replaced where the content edited so far has such a path, and the
overrides reported as unused are those for which it has none. -/
theorem resolve_edits (host : Host) (depth : Nat) {options : Options} {raw : Value} {context : Registry} {next : Identity}
    (settings_accepted : Settings.ofOptions options.settings = .ok settings)
    (context_accepted : Configuration.bindAll options.registry options.context = .ok context)
    (accepted : Runs (Overrides.ofInputs host (Calls.ofDepth host depth) options.overrides)
      ((Store.empty next).inSession fun session => { session with settings, context }) (.ok overrides) s)
    (plain : raw.isPlain settings = true) (values : ∀ o ∈ overrides, o.value.isPlain settings = true)
    (order : ordered.Perm overrides) (sorted : ordered.Pairwise fun a b => a.path.length ≤ b.path.length)
    (lenient : settings.failOnUnusedOverrides = true → Overrides.ignored raw ordered = []) :
    ∃ bound, ∀ deep, bound ≤ deep → ∃ v t u,
      Runs (Configuration.createWith host (Calls.ofDepth host depth) options raw) (Store.empty next) (.ok ()) t ∧
      Runs (Configuration.resolveWith (Calls.ofDepth host deep)) t (.ok v) u ∧
      v.bare = (Overrides.edited raw ordered).bare ∧
      Overrides.unused u.session.overrides =
        (overrides.filter fun o => decide (o.target ∈ Overrides.ignored raw ordered)).map Override.target := by
  obtain ⟨fresh,distinct⟩ := Overrides.accepted_of_ofInputs accepted
  obtain ⟨t,p,create,created⟩ := createWith_run host depth settings_accepted context_accepted accepted plain values
  have distinct' : (ordered.map Override.target).Nodup := (order.map Override.target).nodup_iff.mpr distinct
  have descending := Overrides.descending_of_sorted distinct' sorted
  have becomes := Overrides.becomes_edited plain (fun o member => values o (order.mem_iff.mp member)) descending
  rw [Overrides.replacement_perm order distinct] at becomes
  obtain ⟨bound,resolves⟩ := resolvable_of_becomes host becomes
  refine ⟨max bound 3,fun deep large => ?_⟩
  obtain ⟨deep,rfl⟩ : ∃ n, deep = n + 3 := ⟨deep - 3,by omega⟩
  obtain ⟨v,u,resolve,finish⟩ := resolves (deep + 3) (by omega) p t 0 created.value created.start
  have session := finish.advance
  have unused : Overrides.unused u.session.overrides =
      (overrides.filter fun o => decide (o.target ∈ Overrides.ignored raw ordered)).map Override.target := by
    refine Overrides.unused_eq_ignored (created.registered ▸ session.counted) fresh order distinct' descending fun o _ => ?_
    constructor
    · rintro ⟨rest,_,same,present⟩
      obtain rfl : o.path = rest := same
      exact present
    · exact fun present => ⟨o.path,Overrides.path_ne_nil o,rfl,present⟩
  obtain ⟨w,read,after⟩ := resolveWith_run host deep resolve created.root (session.top.trans created.root) finish.finished
    (finish.parent.trans created.alone) (session.unreported.trans created.unreported) fun strict => by
      rw [session.settings,created.start.informed.in_settings] at strict
      rw [unused,lenient strict]
      simp
  exact ⟨v,t,w,create,read,finish.value,by rw [after]; exact unused⟩

/-- The law at work: a part of what one override put in place is replaced by another one, and a third one finds
nothing. -/
theorem resolve_edits_nested : ∃ bound, ∀ deep, bound ≤ deep → ∃ v t u,
    Runs (Configuration.createWith (Host.bare [] "") (Calls.ofDepth (Host.bare [] "") 0)
      ⟨[.mapping 1 [("a",.mapping 2 [("b",.null)]),("z",.null),("a.b",.text "x")]],[],Registry.standard 0,none,.undefined⟩
      (.mapping 3 [("a",.bool true),("c",.list 4 [.null])])) (Store.empty 5) (.ok ()) t ∧
    Runs (Configuration.resolveWith (Calls.ofDepth (Host.bare [] "") deep)) t (.ok v) u ∧
    v.bare = .mapping 0 [("a",.mapping 0 [("b",.text "x")]),("c",.list 0 [.null])] ∧
    Overrides.unused u.session.overrides = ["z"] :=
  @resolve_edits Settings.defaults _ [⟨"a",.mapping 2 [("b",.null)],0⟩,⟨"z",.null,0⟩,⟨"a.b",.text "x",0⟩]
    [⟨"a",.mapping 2 [("b",.null)],0⟩,⟨"z",.null,0⟩,⟨"a.b",.text "x",0⟩] (Host.bare [] "") 0 _ _ (Registry.standard 0) _
    rfl rfl rfl (by decide +kernel) (by decide +kernel) (.refl _) (by decide +kernel) (fun strict => by cases strict)

end ConfTree
