import ConfTree.Number.Decimal

/-!
# What can go wrong on the way to a node

One case for each way an address can lead nowhere.
-/
namespace ConfTree

/-- A step from a node to one of its children: a key, or an index. -/
inductive Selector where
  | key (key : Text)
  | index (index : Number)
deriving DecidableEq

def Selector.text : Selector → Text
  | .key name => name
  | .index number => number.text

/-- Why an address leads to no node. -/
inductive AddressIssue where
  /-- the embedding program's own words -/
  | reported (message : Text) (address selector : Option Text)
  | invalid (address : Text)
  | pastRoot (address : Text)
  | selectorType (type : Text)
  | scalarChildren (scalar : Text)
  | scalarSelect (selector : Selector) (scalar : Text)
  | sequenceSelect (selector : Selector) (sequence : Text)
  | sequenceRange (index : Number) (sequence : Text) (length : Nat)
  | notItem (node sequence : Text)
  | strayItem (sequence : Text)
  /-- the mapping is given by the words that name it -/
  | mappingIndex (index : Number) (mapping : Text)
  | missingKey (selector key mapping : Text)
  | strayEntry (mapping : Text)
  | notValue (node key : Text)
  | unmatchedOverrides (targets : List Text)
  /-- the containers above a node lead back to it, so that its name never ends -/
  | endless

namespace AddressIssue

def message : AddressIssue → Text
  | reported message .. => message
  | invalid address => .concat ["Invalid reference string '",address,"'"]
  | pastRoot address => .concat ["Reference '",address,"' ascends past the root"]
  | selectorType type => .concat ["Cannot select ",type," from a node"]
  | scalarChildren scalar => .concat ["Scalar '",scalar,"' has no children"]
  | scalarSelect selector scalar => .concat ["Cannot select '",selector.text,"' from scalar '",scalar,"'"]
  | sequenceSelect selector sequence =>
    .concat ["Cannot select '",selector.text,"' from sequence '",sequence,"'"]
  | sequenceRange index sequence length =>
    .concat ["Index ",index.text," out of range for sequence '",sequence,"' of length ",.ofNat length]
  | notItem node sequence => .concat ["'",node,"' is not an item of sequence '",sequence,"'"]
  | strayItem sequence => .concat ["Node is not an item of sequence '",sequence,"'"]
  | mappingIndex index mapping => .concat ["Cannot select index ",index.text," from ",mapping]
  | missingKey _ key mapping => .concat ["No key '",key,"' in ",mapping]
  | strayEntry mapping => .concat ["Node is not an entry of mapping '",mapping,"'"]
  | notValue node key => .concat ["'",node,"' is not the value of entry '",key,"'"]
  | unmatchedOverrides targets => .concat ["Overrides matched no node: ",.join ", " targets]
  | endless => "Maximum call stack size exceeded"

/-- The address that a report quotes. -/
def address? : AddressIssue → Option Text
  | reported _ address _ => address
  | invalid address | pastRoot address => some address
  | _ => none

/-- The step that a report blames. -/
def selector? : AddressIssue → Option Text
  | reported _ _ selector => selector
  | scalarSelect selector _ | sequenceSelect selector _ => some selector.text
  | sequenceRange index .. | mappingIndex index _ => some index.text
  | missingKey selector .. => some selector
  | _ => none

end AddressIssue
end ConfTree
