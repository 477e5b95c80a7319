import ConfTree.Number.Decimal

/-!
# Values

What expressions compute with: scalars, lists, mappings, sets, and objects. A list, mapping or set
carries an identity besides its content, because two of them can be told apart that hold the same;
an object is told apart by identity alone.
-/
namespace ConfTree

/-- A node of the tree, by its place in the store. -/
abbrev NodeId := Nat

/-- What tells two collections or objects apart. -/
abbrev Identity := Nat

/-- The four kinds of nodes. -/
inductive NodeKind where
  | mapping | entry | sequence | scalar
deriving DecidableEq, Repr

/-- The functions every registry starts with. -/
inductive Builtin where
  | len | range | min | max | sum | abs | round | floor | ceil | keys | values | items | zip
  | enumerate | sorted | reversed | any | all | join | upper | lower | env | cwd | parent | child
  | rawValue
deriving DecidableEq, Repr

/-- The types that values are checked against and cast to. -/
inductive TypeName where
  | int | float | number | str | bool | list | set | dict
deriving DecidableEq, Repr

/-- The functions that build modifiers from arguments. -/
inductive Factory where
  | rename | choices | extends | cast
deriving DecidableEq, Repr

/-- What a function object does when it is called. -/
inductive Callable where
  /-- one of the functions every registry starts with -/
  | builtin (function : Builtin)
  /-- resolves what an address leads to from a scope -/
  | ref (scope : NodeId)
  /-- gives the node an address leads to from a scope -/
  | node (scope : NodeId)
  /-- calls a function of the embedding program -/
  | host (name : Text)
deriving DecidableEq

/-- An object of the embedding program that expressions can only pass on. -/
structure Foreign where
  typeName : Text
  display : Text
  /-- whether it answers an index -/
  subscriptable : Bool
  /-- whether it is a record of fields, as opposed to an atom -/
  isRecord : Bool
deriving DecidableEq

/-- What a mapping is laid over. -/
inductive Base where
  | node (id : NodeId)
  | address (address : Text)
deriving DecidableEq

mutual

/-- A value of the expression language. -/
inductive Value where
  | null
  | undefined
  | bool (b : Bool)
  | number (n : Number)
  | text (t : Text)
  | list (id : Identity) (items : List Value)
  | mapping (id : Identity) (pairs : List (Text × Value))
  | set (id : Identity) (items : List Value)
  | object (o : Object)

/-- A value known by its identity. -/
inductive Object where
  | node (id : NodeId) (kind : NodeKind)
  | function (id : Identity) (callable : Callable)
  | type (name : TypeName)
  | modifier (id : Identity) (modifier : Modifier)
  | factory (factory : Factory)
  | foreign (id : Identity) (object : Foreign)

/-- A transformation that a key declares for its value. -/
inductive Modifier where
  | visibility (hide : Bool)
  | required
  | noop
  | promote
  | fuse
  | rename (name : Text)
  | options (options : List (Text × Value)) (fallback : Option Text)
  | values (values : List Value)
  | extends (base : Base)
  | load (group : Option Text) (vars : Option (List (Text × Value)))
  | cast (function : Object)
  /-- a modifier of the embedding program: its kind, and the name it is known by there -/
  | custom (kind name : Text)

end

instance : Inhabited Value := ⟨.undefined⟩

/-- Values under names, in order. -/
abbrev Pairs := List (Text × Value)

/-- A modifier with its identity. -/
structure ModifierObject where
  id : Identity
  modifier : Modifier

namespace NodeKind

def name : NodeKind → Text
  | .mapping => "mapping"
  | .entry => "entry"
  | .sequence => "sequence"
  | .scalar => "scalar"

end NodeKind

namespace TypeName

/-- All of them, in the order of the registry. -/
def inOrder : List TypeName := [.int,.float,.number,.str,.bool,.list,.set,.dict]

def name : TypeName → Text
  | .int => "int"
  | .float => "float"
  | .number => "number"
  | .str => "str"
  | .bool => "bool"
  | .list => "list"
  | .set => "set"
  | .dict => "dict"

end TypeName

namespace Factory

def name : Factory → Text
  | .rename => "rename"
  | .choices => "choices"
  | .extends => "extends"
  | .cast => "cast"

end Factory

namespace Builtin

/-- All of them, in the order of the registry. -/
def inOrder : List Builtin :=
  [.len,.range,.min,.max,.sum,.abs,.round,.floor,.ceil,.keys,.values,.items,.zip,
    .enumerate,.sorted,.reversed,.any,.all,.join,.upper,.lower,.env,.cwd,.parent,.child,
    .rawValue]

def name : Builtin → Text
  | .len => "len"
  | .range => "range"
  | .min => "min"
  | .max => "max"
  | .sum => "sum"
  | .abs => "abs"
  | .round => "round"
  | .floor => "floor"
  | .ceil => "ceil"
  | .keys => "keys"
  | .values => "values"
  | .items => "items"
  | .zip => "zip"
  | .enumerate => "enumerate"
  | .sorted => "sorted"
  | .reversed => "reversed"
  | .any => "any"
  | .all => "all"
  | .join => "join"
  | .upper => "upper"
  | .lower => "lower"
  | .env => "env"
  | .cwd => "cwd"
  | .parent => "parent"
  | .child => "child"
  | .rawValue => "raw_value"

end Builtin

namespace Modifier

/-- Modifiers of one kind replace each other when declarations are inherited. -/
def kind : Modifier → Text
  | .visibility _ => "visibility"
  | .required => "required"
  | .noop => "noop"
  | .promote => "promote"
  | .fuse => "fuse"
  | .rename _ => "rename"
  | .options .. | .values _ => "choices"
  | .extends _ => "extends"
  | .load .. => "load"
  | .cast _ => "cast"
  | .custom kind _ => kind

end Modifier

namespace Object

/-- The name of the object's type. -/
def typeName : Object → Text
  | .node _ kind => kind.name ++ (" node" : Text)
  | .function .. => "function"
  | .type _ => "type"
  | .modifier .. => "modifier"
  | .factory _ => "modifier factory"
  | .foreign _ o => o.typeName

/-- Whether the object can stand before an argument list. -/
def isInvocable : Object → Bool
  | .node .. | .function .. | .type _ | .factory _ => true
  | .modifier _ (.load ..) => true
  | _ => false

/-- Whether the object can stand before an index. -/
def isSubscriptable : Object → Bool
  | .node .. => true
  | .foreign _ o => o.subscriptable
  | _ => false

/-- Whether two objects are one. -/
def same : Object → Object → Bool
  | .node a _, .node b _ => a == b
  | .function a f, .function b g => a == b && f == g
  | .type a, .type b => a == b
  | .modifier a _, .modifier b _ => a == b
  | .factory a, .factory b => a == b
  | .foreign a _, .foreign b _ => a == b
  | _, _ => false

end Object

namespace Value

/-- Whether a number is written as an integer type. -/
def numberType (n : Number) : Text := if n.isInteger then "int" else "float"

/-- The name of the value's type, as messages give it. -/
def typeName : Value → Text
  | .null => "null"
  | .undefined => "undefined"
  | .bool _ => "bool"
  | .number n => numberType n
  | .text _ => "str"
  | .list .. => "list"
  | .mapping .. => "dict"
  | .set .. => "set"
  | .object o => o.typeName

/-- Whether the value stands for no value. -/
def isMissing : Value → Bool
  | .null | .undefined => true
  | _ => false

/-- The value, or another if it stands for no value. -/
def orElse (v other : Value) : Value := if v.isMissing then other else v

def ofInt (i : Int) : Value := .number (Number.ofInt i)

def ofNat (n : Nat) : Value := .number (Number.ofNat n)

/-! ## Native values

The closed set of values that configuration content is made of. -/

/-- Null, a boolean, a text or a finite number. -/
def isNativeScalar : Value → Bool
  | .null | .bool _ | .text _ => true
  | .number n => n.isFinite
  | _ => false

mutual

/-- Whether the value is made of native scalars, lists and mappings throughout. -/
def isNative : Value → Bool
  | .list _ items => allNative items
  | .mapping _ pairs => allPairsNative pairs
  | .null | .bool _ | .text _ => true
  | .number n => n.isFinite
  | .undefined | .set .. | .object _ => false

def allNative : List Value → Bool
  | [] => true
  | v :: rest => isNative v && allNative rest

def allPairsNative : Pairs → Bool
  | [] => true
  | (_,v) :: rest => isNative v && allPairsNative rest

end

end Value
end ConfTree
