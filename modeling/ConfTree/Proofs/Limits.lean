import ConfTree.Overrides
import ConfTree.Proofs.Runs

/-!
# The limit on the length

A source longer than the limit is refused for its length before it is read, whatever reader it was meant for
(`Expression.refused_for_length`): a scalar's expression, the types and modifiers that a key or a fused mapping declares, when they
are evaluated, and the text of assignments. Keys are the exception: what they declare is read for its form when the tree is built,
where no limit is known, so a long declaration that is no list of expressions is refused for its form there.
-/
namespace ConfTree

open StoreM

theorem StoreM.check_error_run {α : Type} (s : Store) (issue : EvalIssue) :
    Runs (check (.error issue : Except EvalIssue α)) s (.error (.fault s.faults.size)) (s.reporting (.eval issue)) := rfl

namespace Expression

/-- The source is longer than the limit. -/
def Exceeds (limit : Number) (source : Text) : Prop := (Number.ofNat source.length).order limit = some .gt

variable {limit : Number} {source : Text}

/-- A source that is too long does not reach the reader that it was meant for. -/
theorem read_long {α : Type} (long : Exceeds limit source) (parse : Text → Except Nat α) :
    read parse limit source = .error (.tooLong source limit) := by
  have refused : guardLength limit source = .error (.tooLong source limit) := if_pos long
  rw [read,refused]
  rfl

section Work

variable (host : Host) (calls : Calls) {s : Store}

theorem evaluate_long_run (long : Exceeds s.session.settings.maxExpressionLength source) (locals : Pairs) :
    Runs (evaluate host calls source locals) s (.error (.fault s.faults.size))
      (s.reporting (.eval (.tooLong source s.session.settings.maxExpressionLength))) := by
  refine getSession_run.bind ?_
  rw [read_long long]
  exact (check_error_run s _).bind_error

theorem evaluateList_long_run (long : Exceeds s.session.settings.maxExpressionLength source) (locals : Pairs) :
    Runs (evaluateList host calls source locals) s (.error (.fault s.faults.size))
      (s.reporting (.eval (.tooLong source s.session.settings.maxExpressionLength))) := by
  refine getSession_run.bind ?_
  rw [read_long long]
  exact (check_error_run s _).bind_error

theorem declared_long_run {α : Type} (asDeclared : Text → Value → Except ConstructionIssue α)
    (long : Exceeds s.session.settings.maxExpressionLength source) (locals : Pairs) :
    Runs (declared host calls asDeclared source locals) s (.error (.fault s.faults.size))
      (s.reporting (.eval (.tooLong source s.session.settings.maxExpressionLength))) :=
  (evaluateList_long_run host calls long locals).bind_error

/-- The types of a key come first, so it is for them that a declaration with long types is refused. -/
theorem declaration_long_run (long : Exceeds s.session.settings.maxExpressionLength source) (modifiers : Option Text) (locals : Pairs) :
    Runs (declaration host calls ⟨some source,modifiers⟩ locals) s (.error (.fault s.faults.size))
      (s.reporting (.eval (.tooLong source s.session.settings.maxExpressionLength))) :=
  ((declared_long_run host calls asType long locals).map_error (g := some)).bind_error

/-- A text of assignments is measured as a whole; a blank one gives nothing and is not read at all. -/
theorem ofText_long_run (long : Exceeds s.session.settings.maxExpressionLength source) (written : source.isBlank = false) :
    Runs (Overrides.ofText host calls source) s (.error (.fault s.faults.size))
      (s.reporting (.eval (.tooLong source s.session.settings.maxExpressionLength))) := by
  rw [Overrides.ofText,written]
  refine getSession_run.bind ?_
  dsimp only
  rw [read_long long]
  exact (check_error_run s _).bind_error

end Work

/-! ## Main result -/

/-- A source that is too long is refused for its length wherever sources are evaluated, and nothing else is done: as an
expression, as a list of types or modifiers, as the types of a key, and as a text of assignments. -/
theorem refused_for_length (host : Host) (calls : Calls) (s : Store) (source : Text) (locals : Pairs)
    (long : Exceeds s.session.settings.maxExpressionLength source) :
    let refused := s.reporting (.eval (.tooLong source s.session.settings.maxExpressionLength))
    Runs (evaluate host calls source locals) s (.error (.fault s.faults.size)) refused ∧
      Runs (types host calls source locals) s (.error (.fault s.faults.size)) refused ∧
      Runs (modifiers host calls source locals) s (.error (.fault s.faults.size)) refused ∧
      (∀ declared, Runs (declaration host calls ⟨some source,declared⟩ locals) s (.error (.fault s.faults.size)) refused) ∧
      (source.isBlank = false → Runs (Overrides.ofText host calls source) s (.error (.fault s.faults.size)) refused) :=
  ⟨evaluate_long_run host calls long locals,declared_long_run host calls asType long locals,
    declared_long_run host calls asModifier long locals,fun declared => declaration_long_run host calls long declared locals,
    ofText_long_run host calls long⟩

end Expression
end ConfTree
