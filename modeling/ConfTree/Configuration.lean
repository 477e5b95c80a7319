import ConfTree.Overrides
import ConfTree.Registry
import ConfTree.Tree.Outline
import ConfTree.Tree.Resolve

/-!
# Configurations

A configuration is a tree bound to a session: settings, names for expressions, overrides and units.
It is read as a whole or by address. The work on the tree that a reading rests on is a parameter; the
readings of a program rest on the work to a fixed depth of references.
-/
namespace ConfTree

/-- What a configuration is made from besides its raw content. -/
structure Options where
  /-- sources of overrides -/
  overrides : List Value
  /-- further names for expressions -/
  context : Pairs
  registry : Registry
  loader : Option (Text → Except Failure Value)
  /-- a layer over the default settings -/
  settings : Value

namespace Store

/-- The session before there is a tree. -/
def noSession : Session := ⟨Settings.defaults,0,[],[],none,[],[],false⟩

/-- A store without nodes; identities from `next` on are free. -/
def empty (next : Identity) : Store := ⟨#[],#[],noSession,next,[]⟩

end Store

namespace Configuration

open StoreM

/-! ## With given work -/

section Given

variable (host : Host) (calls : Calls)

/-- A construction that may be refused. -/
def construct {α : Type} (r : Except ConstructionIssue α) : StoreM α :=
  orThrow (r.mapError fun issue => .construction issue none)

/-- Binds names for expressions over those of a registry. -/
def bindAll (r : Registry) (context : Pairs) : Except ConstructionIssue Registry :=
  context.foldlM (fun r p => r.register p.1 p.2 true) r

/-- Makes a tree the one of the session. -/
def bindRoot (root : NodeId) : StoreM Unit := do
  modifyNode root fun n => { n with isBound := true }
  modifySession fun session => { session with root := root }

/-- Makes a configuration from raw content: settings, names, overrides, and then the tree. -/
def createWith (options : Options) (raw : Value) : StoreM Unit := do
  let settings ← construct (Settings.ofOptions options.settings)
  let context ← construct (bindAll options.registry options.context)
  modifySession fun session => { session with settings, context }
  let overrides ← Overrides.ofInputs host calls options.overrides
  let root ← build raw .empty
  modifySession fun session => { session with overrides, loader := options.loader }
  bindRoot root

/-- The root of the tree. -/
def root : StoreM NodeId := return (← getSession).root

/-- The node that an address leads to from the root. -/
def getWith (address : Text) : StoreM NodeId := do Navigate.fromAddress calls (← root) address

/-- The node that selectors lead to, one after another. -/
def nodeWith (selectors : List Selector) : StoreM NodeId := do selectors.foldlM calls.child (← root)

/-- The targets of overrides that were not used so far. -/
def unused : StoreM (List Text) := return Overrides.unused (← getSession).overrides

/-- The units loaded so far. -/
def loaded : StoreM (List Text) := return (← getSession).templates.map Prod.fst

/-- Whether something thrown says that an address leads to no node. -/
def isAddressFault : Thrown → StoreM Bool
  | .foreign _ => return false
  | .fault id => do
    match (← getThe Store).faults[id]? with
    | some ⟨.address _,_,_⟩ => return true
    | _ => return false

/-- Goes to the target of each unused override, which applies those aimed into parts of the tree that
nothing needed. -/
def settleTargets : StoreM Unit := do
  (← unused).forM fun target =>
    tryCatch (discard (getWith calls target)) fun thrown => do
      unless ← isAddressFault thrown do throw thrown

/-- Looks once for overrides that match no node, and refuses them if the settings say so. -/
def reportUnused : StoreM Unit := do
  if (← getSession).isReported then return ()
  settleTargets calls
  let targets ← unused
  if !targets.isEmpty && (← getSession).settings.failOnUnusedOverrides then
    throwCause (.address (.unmatchedOverrides targets))
  modifySession fun session => { session with isReported := true }

/-- The value of the whole tree. -/
def resolveWith : StoreM Value := do
  let v ← calls.resolve (← root)
  reportUnused calls
  return v

/-- The value at an address; the empty address stands for the whole tree. -/
def callWith (address : Text) : StoreM Value := do
  if address.isEmpty then resolveWith calls else calls.resolve (← getWith calls address)

/-- Binds a name for expressions. -/
def register (name : Text) (v : Value) (overwrite : Bool) : StoreM Unit := do
  let context ← construct (Registry.register (← getSession).context name v overwrite)
  modifySession fun session => { session with context }

/-- The outline of the tree after overrides and modifiers, no deeper than `depth`. -/
def describeWith (depth : Nat) : StoreM Text := do
  return .join "\n" (← Outline.lines (Outline.settling calls) depth 0 .empty (← root))

end Given

/-! ## To the limit -/

variable (host : Host)

/-- How deep the work on a tree may go. -/
def depthLimit : Nat := 5000

/-- The work on a tree. -/
def calls : Calls := Calls.ofDepth host depthLimit

/-- Makes a configuration from raw content. -/
def create (options : Options) (raw : Value) : StoreM Unit := createWith host (calls host) options raw

/-- The node that an address leads to from the root. -/
def get (address : Text) : StoreM NodeId := getWith (calls host) address

/-- The node that selectors lead to, one after another. -/
def node (selectors : List Selector) : StoreM NodeId := nodeWith (calls host) selectors

/-- The value of the whole tree. -/
def resolve : StoreM Value := resolveWith (calls host)

/-- The value at an address; the empty address stands for the whole tree. -/
def call (address : Text) : StoreM Value := callWith (calls host) address

/-- The outline of the tree after overrides and modifiers. -/
def describe : StoreM Text := describeWith (calls host) depthLimit

end Configuration
end ConfTree
