import ConfTree.Expr.Basic
import ConfTree.Value.Basic

/-!
# Syntax trees as values

An expression written as nested mappings, each with the type of its node and its parts by name.
-/
namespace ConfTree

namespace Record

/-- A mapping with the type of a node first. -/
def node (type : Text) (parts : Pairs) : Value := .mapping 0 (("type",.text type) :: parts)

def list (items : List Value) : Value := .list 0 items

end Record

open Record

namespace Literal

def value : Literal → Value
  | .null => .null
  | .bool b => .bool b
  | .number n => .number n
  | .text t => .text t

end Literal

namespace Collection

def name : Collection → Text
  | .list => "list"
  | .set => "set"

end Collection

mutual

def Expr.record : Expr → Value
  | .literal l => node "Literal" [("value",l.value)]
  | .name n => node "Name" [("name",.text n)]
  | .list items => node "List" [("items",list (itemRecords items))]
  | .set items => node "Set" [("items",list (itemRecords items))]
  | .mapping entries => node "Mapping" [("entries",list (entryRecords entries))]
  | .comprehension kind element clauses =>
    node "Comprehension"
      [("kind",.text kind.name),("element",element.record),("clauses",list (clauseRecords clauses))]
  | .mappingComprehension key value clauses =>
    node "MappingComprehension"
      [("key",key.record),("value",value.record),("clauses",list (clauseRecords clauses))]
  | .unary op argument => node "Unary" [("operator",.text op.sign),("argument",argument.record)]
  | .binary op left right =>
    node "Binary" [("operator",.text op.sign),("left",left.record),("right",right.record)]
  | .logical op left right =>
    node "Logical" [("operator",.text op.sign),("left",left.record),("right",right.record)]
  | .compare first rest => node "Compare" [("first",first.record),("rest",list (linkRecords rest))]
  | .conditional test consequent alternate =>
    node "Conditional"
      [("test",test.record),("consequent",consequent.record),("alternate",alternate.record)]
  | .call callee args => node "Call" [("callee",callee.record),("args",list (argumentRecords args))]
  | .index object index => node "Index" [("object",object.record),("index",index.record)]
  | .slice object start stop step =>
    node "Slice" (("object",object.record) ::
      (boundRecord "start" start ++ boundRecord "stop" stop ++ boundRecord "step" step))

def boundRecord (name : Text) : Option Expr → Pairs
  | none => []
  | some e => [(name,e.record)]

def linkRecords : List (CompareOp × Expr) → List Value
  | [] => []
  | (op,operand) :: rest =>
    .mapping 0 [("operator",.text op.sign),("operand",operand.record)] :: linkRecords rest

def itemRecords : List Item → List Value
  | [] => []
  | .spread e :: rest => node "Spread" [("argument",e.record)] :: itemRecords rest
  | .one e :: rest => e.record :: itemRecords rest

def entryRecords : List Entry → List Value
  | [] => []
  | .spread e :: rest => node "Spread" [("argument",e.record)] :: entryRecords rest
  | .pair key value :: rest =>
    node "Pair" [("key",key.record),("value",value.record)] :: entryRecords rest

def clauseRecords : List Clause → List Value
  | [] => []
  | .each targets iterable :: rest =>
    node "For" [("targets",list (targets.map .text)),("iterable",iterable.record)] :: clauseRecords rest
  | .when test :: rest => node "If" [("test",test.record)] :: clauseRecords rest

def argumentRecords : List Argument → List Value
  | [] => []
  | .positional e :: rest => node "Positional" [("value",e.record)] :: argumentRecords rest
  | .keyword name e :: rest =>
    node "Keyword" [("name",.text name),("value",e.record)] :: argumentRecords rest
  | .spread e :: rest => node "Spread" [("argument",e.record)] :: argumentRecords rest

end

def Assignment.record (a : Assignment) : Value :=
  .mapping 0 [("target",.text a.target),("expression",a.expression.record),("source",.text a.source)]

end ConfTree
