import ConfTree.Value.Coercion
import ConfTree.Value.Pairs
import ConfTree.Yaml.Plain
import ConfTree.Yaml.Quoted
import ConfTree.Yaml.Scalar

/-!
# Nodes

A node is a scalar, a collection in brackets, or a collection in a block, whose items stand at one
column. A block is at most as deep as the document is long, so the readers count steps down from
there. What begins with another mark (a tag, an anchor, a literal block, a key set apart by a
question mark) is no node, and is refused where a node or the end is expected.
-/
namespace ConfTree.Yaml

open Scan

/-! ## Keys -/

def isList : Value → Bool
  | .list .. => true
  | _ => false

/-- The key that a value in the place of a key stands for. A list stands for its items with commas
between, unless one of them is a list. -/
def keyOf? (v : Value) : Option Text :=
  match v with
  | .list _ items => if items.any isList then none else some v.coercedText
  | _ => some v.coercedText

/-- Writes a pair that must be new. -/
def addPair (pairs : Pairs) (key value : Value) : Scan Pairs :=
  match keyOf? key with
  | none => failure
  | some key => if Pairs.contains pairs key then failure else return Pairs.insert pairs key value

/-! ## Collections in brackets -/

/-- An item between brackets: a node, or a pair. -/
inductive Item where
  | single (v : Value)
  | pair (key value : Value)

/-- The items as a list; a pair is a mapping of its own. -/
def listOf (items : List Item) : Scan Value := do
  let vs ← items.mapM fun
    | .single v => return v
    | .pair key value => return .mapping 0 (← addPair [] key value)
  return .list 0 vs

/-- The items as a mapping; a single node is a key of null. -/
def mappingOf (items : List Item) : Scan Value := do
  let pairs ← items.foldlM (fun acc item =>
    match item with
    | .single key => addPair acc key .null
    | .pair key value => addPair acc key value) []
  return .mapping 0 pairs

mutual

/-- A scalar or a collection in brackets, if one begins here; `indent` is how far the later lines of
a plain scalar are indented at least. -/
def inlineNode? (indent : Nat) (inBrackets : Bool) : Nat → Scan (Option Value)
  | 0 => failure
  | fuel + 1 => do
    match ← next? with
    | none => return none
    | some u =>
      if u == '[' then
        advance 1
        return some (← listOf (← items indent ']' true fuel))
      else if u == '\x7b' then
        advance 1
        return some (← mappingOf (← items indent '\x7d' true fuel))
      else if u == '"' || u == '\'' then return some (.text (← quotedScalar u))
      else return (← plainScalar? indent inBrackets).map plainValue

/-- The items up to a closing bracket; `ready` says that an item may come. -/
def items (indent : Nat) (closing : CodeUnit) (ready : Bool) : Nat → Scan (List Item)
  | 0 => failure
  | fuel + 1 => do
    discard (skip true)
    if (← next?) == some closing then
      advance 1
      return []
    else
      let comma : CodeUnit := ','
      if !ready || (← get).rest.isEmpty || (← next?) == some comma then failure
      let item ← item indent fuel
      discard (skip true)
      let ready := (← next?) == some comma
      if ready then advance 1
      return item :: (← items indent closing ready fuel)

/-- One item: a node, and after a colon in the same line the value of a pair. -/
def item (indent : Nat) : Nat → Scan Item
  | 0 => failure
  | fuel + 1 => do
    let line := (← spot).line
    let first := (← inlineNode? indent true fuel).getD .null
    discard (skip true)
    let colon : CodeUnit := ':'
    if (← spot).line = line && (← next?) == some colon then
      advance 1
      discard (skip true)
      return .pair first ((← inlineNode? indent true fuel).getD .null)
    else return .single first

end

/-! ## Blocks -/

/-- Passes what follows an item that began in a line: the end, or a new line that is indented no
further than the items. Gives whether another item may come. -/
def endItem (line column : Nat) : Scan Bool := do
  discard (skip true)
  let s ← spot
  if (← get).rest.isEmpty then return false
  else if s.line = line || column < s.indent then failure
  else return column ≤ s.indent

/-- Passes the colon after a key that began in a line; a gap must follow it. Gives whether there is
one. -/
def endKey (line : Nat) : Scan Bool := do
  let space := (← get).rest.takeWhile isSpace
  if (← spot).line != line then return false
  let colon : CodeUnit := ':'
  if ((← get).rest.drop space.length).head? != some colon then return false
  advance space.length
  if !(← atMark ':') then failure
  advance 1
  return true

mutual

/-- A node whose lines are indented by `least` at least, if one begins here. -/
def blockNode? (least : Nat) : Nat → Scan (Option Value)
  | 0 => failure
  | fuel + 1 => do
    let s ← spot
    if s.tabbed then inlineNode? least false fuel
    else if ← atMark '-' then return some (.list 0 (← sequence s.column fuel))
    else
      match ← inlineNode? least false fuel with
      | none => return none
      | some first =>
        if ← endKey s.line then
          return some (.mapping 0 (← entry s.column least [] first s.line fuel))
        else return some first
termination_by structural fuel => fuel

/-- The items of a sequence, each behind a dash at a column. -/
def sequence (column : Nat) : Nat → Scan (List Value)
  | 0 => failure
  | fuel + 1 => do
    if (← spot).tabbed && !(← get).rest.isEmpty then failure
    if !(← atMark '-') then return []
    advance 1
    let breaks ← skip true
    let s ← spot
    if 0 < breaks && s.indent ≤ column then return .null :: (← sequence column fuel)
    let v := (← blockNode? (column + 1) fuel).getD .null
    if ← endItem s.line column then return v :: (← sequence column fuel) else return [v]
termination_by structural fuel => fuel

/-- The pair of a key, and the pairs of a mapping at a column that follow it. The key began in a
line. -/
def entry (column least : Nat) (pairs : Pairs) (key : Value) (line : Nat) : Nat → Scan Pairs
  | 0 => failure
  | fuel + 1 => do
    let v := (← entryValue? column fuel).getD .null
    let pairs ← addPair pairs key v
    if !(← endItem line column) then return pairs
    let s ← spot
    if s.tabbed then failure
    match ← inlineNode? least false fuel with
    | none => return pairs
    | some next => if ← endKey s.line then entry column least pairs next s.line fuel else failure
termination_by structural fuel => fuel

/-- The value after a key of a mapping at a column: in the same line no block, in a later line one
that is indented further, or a sequence at the column itself. -/
def entryValue? (column : Nat) : Nat → Scan (Option Value)
  | 0 => failure
  | fuel + 1 => do
    let breaks ← skip true
    let s ← spot
    if breaks = 0 then inlineNode? (column + 1) false fuel
    else if column < s.indent then blockNode? (column + 1) fuel
    else if column = s.indent && !s.tabbed && (← atMark '-') then
      return some (.list 0 (← sequence s.column fuel))
    else return none
termination_by structural fuel => fuel

end

end ConfTree.Yaml
