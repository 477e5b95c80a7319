import ConfTree.Value.Display

/-!
# Coercion

How any value is taken as a text where one is needed, as for the key of a mapping: a list is the texts of its items with commas
between, and a mapping has one text whatever it holds.
-/
namespace ConfTree.Value

mutual

/-- A value taken as a text. -/
def coercedText : Value → Text
  | .null => "null"
  | .undefined => "undefined"
  | .bool b => boolText b
  | .number n => n.text
  | .text t => t
  | .list _ items => .join "," (coercedItems items)
  | .mapping .. => "[object Object]"
  | .set .. => "[object Set]"
  | .object o => o.text

/-- The texts of items; one that stands for no value has none. -/
def coercedItems : List Value → List Text
  | [] => []
  | v :: rest => (if v.isMissing then .empty else coercedText v) :: coercedItems rest

end

end ConfTree.Value
