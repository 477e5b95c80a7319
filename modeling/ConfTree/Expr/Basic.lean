import ConfTree.Number.Decimal

/-!
# Expressions

The abstract form of the expression language: literals, names, displays and comprehensions of
lists, sets and mappings, operators, calls, indices and slices.
-/
namespace ConfTree

/-- A scalar that is written out. -/
inductive Literal where
  | null
  | bool (b : Bool)
  | number (n : Number)
  | text (t : Text)
deriving DecidableEq

inductive UnaryOp where
  | minus | plus | not
deriving DecidableEq

inductive BinaryOp where
  | add | subtract | multiply | divide | modulo | power
deriving DecidableEq

inductive LogicalOp where
  | and | or
deriving DecidableEq

inductive CompareOp where
  | equal | notEqual | less | lessEqual | greater | greaterEqual | member
deriving DecidableEq

/-- What a comprehension over elements builds. -/
inductive Collection where
  | list | set
deriving DecidableEq

mutual

inductive Expr where
  | literal (value : Literal)
  | name (name : Text)
  | list (items : List Item)
  | set (items : List Item)
  | mapping (entries : List Entry)
  | comprehension (kind : Collection) (element : Expr) (clauses : List Clause)
  | mappingComprehension (key value : Expr) (clauses : List Clause)
  | unary (op : UnaryOp) (argument : Expr)
  | binary (op : BinaryOp) (left right : Expr)
  | logical (op : LogicalOp) (left right : Expr)
  /-- a chain `first op operand op operand …`, all of whose links must hold -/
  | compare (first : Expr) (rest : List (CompareOp × Expr))
  | conditional (test consequent alternate : Expr)
  | call (callee : Expr) (args : List Argument)
  | index (object index : Expr)
  | slice (object : Expr) (start stop step : Option Expr)

/-- An item of a list or set display. -/
inductive Item where
  | spread (argument : Expr)
  | one (value : Expr)

/-- An entry of a mapping display. -/
inductive Entry where
  | spread (argument : Expr)
  | pair (key value : Expr)

/-- A clause of a comprehension. -/
inductive Clause where
  | each (targets : List Text) (iterable : Expr)
  | when (test : Expr)

/-- An argument of a call. -/
inductive Argument where
  | positional (value : Expr)
  | keyword (name : Text) (value : Expr)
  | spread (argument : Expr)

end

instance : Inhabited Expr := ⟨.literal .null⟩

/-- An assignment: a target in canonical form, the expression, and the text it was read from. -/
structure Assignment where
  target : Text
  expression : Expr
  source : Text

namespace UnaryOp

def sign : UnaryOp → Text
  | .minus => "-"
  | .plus => "+"
  | .not => "!"

end UnaryOp

namespace BinaryOp

def sign : BinaryOp → Text
  | .add => "+"
  | .subtract => "-"
  | .multiply => "*"
  | .divide => "/"
  | .modulo => "%"
  | .power => "**"

end BinaryOp

namespace LogicalOp

def sign : LogicalOp → Text
  | .and => "&&"
  | .or => "||"

end LogicalOp

namespace CompareOp

def sign : CompareOp → Text
  | .equal => "=="
  | .notEqual => "!="
  | .less => "<"
  | .lessEqual => "<="
  | .greater => ">"
  | .greaterEqual => ">="
  | .member => "in"

end CompareOp
end ConfTree
