import ConfTree.Value.Pairs

/-!
# Equality

Three relations of rising coarseness. `identical` compares scalars by value and all else by
identity. `sameMember`, which sets go by, is the same but for not-a-number, which counts as one
member. `equal`, the language's `==`, compares the content of lists, mappings and sets.
-/
namespace ConfTree.Value

/-- Equal scalars, or one and the same collection or object. -/
def identical : Value → Value → Bool
  | .null, .null | .undefined, .undefined => true
  | .bool a, .bool b => a == b
  | .number a, .number b => a.same b
  | .text a, .text b => a == b
  | .list a _, .list b _ => a == b
  | .mapping a _, .mapping b _ => a == b
  | .set a _, .set b _ => a == b
  | .object a, .object b => a.same b
  | _, _ => false

/-- Whether a set counts two values as one. -/
def sameMember : Value → Value → Bool
  | .number a, .number b => a.sameMember b
  | a, b => identical a b

mutual

/-- Structural equality of lists, mappings and sets; identity of anything else. Two sets are equal
if they are of one size and each member of the left one equals a member of the right one. With
`reversed` the second value stands on the left. -/
def equalFrom (reversed : Bool) : Value → Value → Bool
  | .list a xs, .list b ys => a == b || equalItems reversed xs ys
  | .set a xs, .set b ys =>
    a == b || (xs.length == ys.length &&
      (if reversed then ys.all (fun y => anyEqual xs y) else allMet xs ys))
  | .mapping a ps, .mapping b qs => a == b || (ps.length == qs.length && equalPairs reversed ps qs)
  | .null, v => identical .null v
  | .undefined, v => identical .undefined v
  | .bool b, v => identical (.bool b) v
  | .number n, v => identical (.number n) v
  | .text t, v => identical (.text t) v
  | .object o, v => identical (.object o) v
  | .list .., _ | .set .., _ | .mapping .., _ => false
termination_by structural v => v

/-- Equal items at equal places. -/
def equalItems (reversed : Bool) : List Value → List Value → Bool
  | [], [] => true
  | x :: xs, y :: ys => equalFrom reversed x y && equalItems reversed xs ys
  | _, _ => false
termination_by structural xs => xs

/-- Every value of the first list is met by some value of the second. -/
def allMet : List Value → List Value → Bool
  | [], _ => true
  | x :: xs, ys => ys.any (fun y => equalFrom true x y) && allMet xs ys
termination_by structural xs => xs

/-- Some value of the list equals `y`. -/
def anyEqual : List Value → Value → Bool
  | [], _ => false
  | x :: xs, y => equalFrom false x y || anyEqual xs y
termination_by structural xs => xs

/-- Every key of the first mapping has an equal value in the second. -/
def equalPairs (reversed : Bool) : Pairs → Pairs → Bool
  | [], _ => true
  | (k,v) :: rest, qs =>
    (match ConfTree.Pairs.get? qs k with
      | some w => equalFrom reversed v w
      | none => false) && equalPairs reversed rest qs
termination_by structural ps => ps

end

/-- The language's `==`. -/
def equal (a b : Value) : Bool := equalFrom false a b

/-- Whether some value of a list equals `item`. -/
def isIn (items : List Value) (item : Value) : Bool := items.any fun candidate => equal candidate item

/-- What a set keeps of a value: the negative zero becomes zero. -/
def asMember : Value → Value
  | .number .negZero => .number Number.zero
  | v => v

/-- Adds a value at the end unless the set has it. -/
def addMember (items : List Value) (v : Value) : List Value :=
  if items.any (sameMember · v) then items else items ++ [asMember v]

/-- The members of a set made of these values, in order of first occurrence. -/
def members (items : List Value) : List Value := items.foldl addMember []

end ConfTree.Value
