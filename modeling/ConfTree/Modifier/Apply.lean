import ConfTree.Tree.Expression
import ConfTree.Tree.Unit

/-!
# Modifiers at work

What each modifier does to the node that it is applied to. Some set a flag or add a transform; the
others put another node in its place and give that back.
-/
namespace ConfTree.Modify

open StoreM

variable (host : Host) (calls : Calls)

/-- Adds a transform that the value of a node goes through. -/
def addTransform (node : NodeId) (t : Transform) : StoreM Unit :=
  modifyNode node fun n => { n with transforms := n.transforms ++ [t] }

/-- The entry whose value a node is. -/
def entryAbove? (node : NodeId) : StoreM (Option NodeId) := do
  let s ← get
  return (s.node node).parent.filter fun p => s.kind p == .entry

/-- Emits the entry of a node under another key. -/
def rename (node : NodeId) (name : Text) : StoreM Unit := do
  match ← entryAbove? node with
  | none => throwCause (.construction .renamedPlace none)
  | some entry => modifyBody entry fun
    | .entry head slot declared _ modification evaluated =>
      .entry head slot declared (some name) modification evaluated
    | body => body

/-- Puts a node in the place of the mapping that holds nothing but it. -/
def promote (node : NodeId) : StoreM NodeId := do
  let s ← get
  let mapping := (← entryAbove? node).bind fun entry =>
    (s.node entry).parent.filter fun p => s.kind p == .mapping
  match mapping with
  | none => throwCause (.construction .promotedPlace none)
  | some mapping =>
    if (s.entries mapping).length ≠ 1 then
      throwCause (.construction (.promotedSiblings (s.keys mapping)) none)
    replaceWith mapping node

/-! ## Choices and extension -/

/-- The display of values, separated by commas. -/
def displayAll (vs : List Value) : StoreM Text := return .join ", " (← vs.mapM display)

/-- Throws unless a value equals one of the values to choose from. -/
def checkAmong (values : List Value) (v : Value) : StoreM Unit := do
  if !values.any fun choice => Value.equal choice v then
    let shown ← display v
    throwCause (.choice (.concat [shown," is not one of ",← displayAll values]) values)

/-- The content of the option that a value selects. -/
def select (options : Pairs) (fallback : Option Text) (v : Value) : StoreM Value := do
  let keys := Pairs.keys options
  let refuse (message : Text) : StoreM Value := throwCause (.choice message (keys.map .text))
  let expected := Text.join ", " keys
  let selected := v.orElse (fallback.elim .undefined .text)
  if selected.isMissing then
    refuse (.concat ["No choice selected and no default; expected one of ",expected])
  else
    let option := match selected with
      | .text key => Pairs.get? options key
      | _ => none
    match option with
    | some content => return content
    | none => do refuse (.concat [← display selected," is not one of ",expected])

/-- Puts the option that a node's value selects in its place. -/
def choose (node : NodeId) (options : Pairs) (fallback : Option Text) : StoreM NodeId := do
  let option ← select options fallback (← calls.resolve node)
  match option with
  | .object (.node id _) => do replaceWith node (← copy id)
  | raw => do
    requireSession node
    let replacement ← build raw (← nameOf node)
    replaceWith node replacement

/-- The content of a mapping laid over a base: its own entries first, each inheriting from the entry
of the base with its key, then those that only the base has. -/
def overlay (s : Store) (own base : NodeId) : Content :=
  let entriesOf : Content → List (EntryHead × Content)
    | .mapping entries => entries
    | _ => []
  let inheriting := (entriesOf (s.content own)).map fun (head,content) =>
    match s.findEntry base head.key.name with
    | some entry => ({ head with inherited := some entry },content)
    | none => (head,content)
  let added := (entriesOf (s.content base)).filter fun (head,_) => (s.findEntry own head.key.name).isNone
  .mapping (inheriting ++ added)

/-- The node that a base is. -/
def baseNode (node : NodeId) : Base → StoreM NodeId
  | .node id => pure id
  | .address address => do
    requireSession node
    Navigate.fromAddress calls (← getSession).root address

/-- Lays the mapping that a node is over a base. -/
def extend (id : NodeId) (base : Base) : StoreM NodeId := do
  let node ← current id
  if (← kindOf node) ≠ .mapping then throwCause (.construction (.extendsValue (← kindOf node).name) none)
  let base ← calls.settled (← baseNode calls node base)
  let kind ← kindOf base
  if kind ≠ .mapping then
    throwCause (.construction (.extendsBase (← nameOf base) kind.name) none)
  if base = node then throwCause (.construction .extendsItself none)
  let merged ← plant (overlay (← get) node base)
  replaceWith node merged

/-! ## Units and fusion -/

/-- The name of the unit that a value gives, within a group. -/
def unitName (group : Option Text) : Value → Except Cause Text
  | v@(.text name) =>
    if name.isEmpty then .error (.construction (.loadedName v.typeName) none)
    else .ok (match group with
      | some group => .concat [group,"/",name]
      | none => name)
  | v => .error (.construction (.loadedName v.typeName) none)

/-- Throws if a node stands within the unit already. -/
def checkNesting (node : NodeId) (unit : Text) : StoreM Unit := do
  match (← get).enclosingUnits node with
  | none => unending
  | some enclosing =>
    if enclosing.contains unit then
      throwCause (.cycle (enclosing.dropWhile (· != unit) ++ [unit]) none)

/-- Puts a raw value at a path of an instance of a unit. -/
def setVariable (unit : Text) (instance_ : NodeId) (path : Text) (raw : Value) : StoreM Unit := do
  match (← get).declaredNode? instance_ path with
  | none => throwCause (.construction (.loadedPath unit path) none)
  | some node => discard (replaceWith node (← build raw path))

/-- Puts an instance of the unit that a scalar names in its place; a node that is no scalar stays. -/
def load (node : NodeId) (group : Option Text) (vars : Pairs) : StoreM (Option NodeId) := do
  if (← kindOf node) ≠ .scalar then
    discard (nameOf node)
    return none
  let unit ← orThrow (unitName group (← calls.resolve node))
  checkNesting node unit
  requireSession node
  let instance_ ← instantiate unit
  vars.forM fun (path,raw) => setVariable unit instance_ path raw
  return some (← replaceWith node instance_)

/-- The keys of a mapping that declares its types and modifiers itself. -/
def fuseKeys : List Text := ["value","types","modifiers"]

/-- The sources under a key of such a mapping: a text or a list of texts. -/
def sources (mapping : NodeId) (key : Text) : StoreM (List Text) := do
  if ((← get).findEntry mapping key).isNone then return []
  let v ← calls.resolve (← calls.child mapping (.key key))
  let items := match v with
    | .list _ items => items
    | _ => [v]
  match Settings.texts? items with
  | some sources => return sources
  | none => throwCause (.construction (.fuseSource key) none)

/-- Applies modifiers one after another, each to what the one before it left. -/
def applyAll (node : NodeId) (modifiers : List ModifierObject) : StoreM NodeId :=
  modifiers.foldlM (fun node m => do current ((← calls.apply m node).getD node)) node

/-- Puts the value of a mapping with declarations in its place and applies those. -/
def fuse (node : NodeId) : StoreM NodeId := do
  let mapping ← calls.settled node
  let s ← get
  if s.kind mapping ≠ .mapping then
    throwCause (.construction (.fuseValue (s.kind mapping).name) none)
  let unexpected := (s.keys mapping).filter fun key => !fuseKeys.contains key
  if (s.findEntry mapping "value").isNone || !unexpected.isEmpty then
    throwCause (.construction (.fuseKeys unexpected) none)
  let typeSources ← sources calls mapping "types"
  let modifierSources ← sources calls mapping "modifiers"
  let start ← replaceWith mapping (← calls.child mapping (.key "value"))
  requireSession start
  let result ← modifierSources.foldlM (fun node source => do
    let modifiers ← Expression.modifiers host calls source (← Expression.locals node)
    applyAll calls node modifiers) start
  if !typeSources.isEmpty then
    let locals ← Expression.locals result
    let types ← typeSources.mapM fun source => Expression.types host calls source locals
    modifyNode result fun n => { n with types := some types.flatten }
  return result

/-! ## All modifiers -/

/-- Does what a modifier of the embedding program asks for. -/
def edit (kind : Text) (node : NodeId) : HostEdit → StoreM (Option NodeId)
  | .nothing | .answer .undefined => return none
  | .answer (.object (.node id _)) => return some id
  | .answer v => throwCause (.construction (.modifierResult kind v.typeName) none)
  | .transform name => do
    addTransform node (.host name)
    return none
  | .replace raw => do return some (← replaceWith node (← build raw .empty))
  | .replaceContainer raw => do
    match (← getNode node).parent with
    | none => return none
    | some parent =>
      match (← getNode parent).parent with
      | none => return none
      | some container =>
        discard (replaceWith container (← build raw .empty))
        return none
  | .fail message => throw (.foreign message)

/-- Applies a modifier to a node; gives the node that was put in its place, if one was. -/
def apply (m : ModifierObject) (node : NodeId) : StoreM (Option NodeId) :=
  match m.modifier with
  | .visibility hide => do
    modifyNode node fun n => { n with isHidden := hide }
    return none
  | .required => do
    modifyNode node fun n => { n with isRequired := true }
    return none
  | .noop => return none
  | .promote => some <$> promote node
  | .fuse => some <$> fuse host calls node
  | .rename name => do
    rename node name
    return none
  | .options options fallback => some <$> choose calls node options fallback
  | .values values => do
    addTransform node (.among values)
    return none
  | .extends base => some <$> extend calls node base
  | .load group vars => load calls node group (vars.getD [])
  | .cast function => do
    addTransform node (.call function)
    return none
  | .custom kind name => edit kind node (host.modifier name)

end ConfTree.Modify
