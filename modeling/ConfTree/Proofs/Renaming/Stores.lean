import ConfTree.Proofs.Renaming.Functions
import ConfTree.Proofs.Runs
import ConfTree.Tree.Unit

/-!
# Stores under other identities

A store with every value renamed has the same nodes at the same places, so it gives the same answer to each question
about names, places and declared content.
-/
namespace ConfTree

variable {f : Renaming} {m : Nat}

def ModifierObject.renamed (f : Renaming) (m : ModifierObject) : ModifierObject := ⟨f m.id,m.modifier.renamed f⟩

def Declaration.renamed (f : Renaming) (d : Declaration) : Declaration := ⟨d.types,d.modifiers.map (ModifierObject.renamed f)⟩

def Transform.renamed (f : Renaming) : Transform → Transform
  | .call function => .call (function.renamed f)
  | .among values => .among (values.map (Value.renamed f))
  | .host name => .host name

def Body.renamed (f : Renaming) : Body → Body
  | .scalar raw override => .scalar raw override
  | .sequence items declared isSettled => .sequence items declared isSettled
  | .mapping entries isSettled => .mapping entries isSettled
  | .entry head slot declared renamed modification evaluated =>
    .entry head slot declared renamed modification (evaluated.map (Declaration.renamed f))

def Progress.renamed (f : Renaming) : Progress Value → Progress Value
  | .pending => .pending
  | .active => .active
  | .done v => .done (v.renamed f)
  | .failed fault => .failed fault

def Node.renamed (f : Renaming) (n : Node) : Node :=
  { n with
    body := n.body.renamed f
    transforms := n.transforms.map (Transform.renamed f)
    resolution := n.resolution.renamed f }

def Fault.renamed (f : Renaming) (fault : Fault) : Fault := { fault with cause := fault.cause.renamed f }

/-- The raw values of overrides keep their identities, since nothing comes of these. -/
def Session.renamed (f : Renaming) (session : Session) : Session :=
  { session with
    context := session.context.renamed f
    loader := session.loader.map fun load name => (Value.renamed f <$> load name).mapError (Failure.renamed f) }

/-- A store with other identities, of which those from `next` on are free. -/
def Store.renamed (f : Renaming) (next : Nat) (s : Store) : Store where
  nodes := s.nodes.map (Node.renamed f)
  faults := s.faults.map (Fault.renamed f)
  session := s.session.renamed f
  nextIdentity := next
  callCounts := s.callCounts

@[simp] theorem Body.kind_renamed (b : Body) : (b.renamed f).kind = b.kind := by
  cases b <;> rfl

namespace Store

variable {s : Store}

@[simp] theorem size_renamed : (s.renamed f m).nodes.size = s.nodes.size := Array.size_map

theorem node_renamed (id : NodeId) : (s.renamed f m).node id = (s.node id).renamed f := by
  simp only [node,renamed,Array.getElem?_map]
  cases s.nodes[id]? <;> rfl

@[simp] theorem body_renamed (id : NodeId) : ((s.renamed f m).node id).body = (s.node id).body.renamed f := by
  rw [node_renamed]
  rfl

@[simp] theorem parent_renamed (id : NodeId) : ((s.renamed f m).node id).parent = (s.node id).parent := by
  rw [node_renamed]
  rfl

@[simp] theorem kind_renamed (id : NodeId) : (s.renamed f m).kind id = s.kind id := by
  rw [kind,kind,Node.kind,Node.kind,body_renamed,Body.kind_renamed]

@[simp] theorem current_renamed (id : NodeId) : (s.renamed f m).current id = s.current id := by
  have follow (steps : Nat) (id : NodeId) : (s.renamed f m).follow steps id = s.follow steps id := by
    induction steps generalizing id with
    | zero => rfl
    | succ steps ih =>
      have replaced : ((s.renamed f m).node id).replacedBy = (s.node id).replacedBy := by
        rw [node_renamed]
        rfl
      rw [Store.follow,Store.follow,replaced]
      cases (s.node id).replacedBy with
      | none => rfl
      | some next => exact ih next
  rw [current,current,size_renamed,follow]

@[simp] theorem above?_renamed (id : NodeId) : (s.renamed f m).above? id = s.above? id := by
  have current : (s.renamed f m).current = s.current := funext current_renamed
  rw [above?,above?,current,parent_renamed]

theorem upTo_renamed {stop : Node → Bool} (same : ∀ n : Node, stop (n.renamed f) = stop n) (steps : Nat) (id : NodeId) :
    (s.renamed f m).upTo stop steps id = s.upTo stop steps id := by
  induction steps generalizing id with
  | zero => rfl
  | succ steps ih =>
    rw [upTo,upTo,current_renamed,node_renamed,same,above?_renamed]
    cases s.above? id with
    | none => rfl
    | some parent => simp only [ih]

@[simp] theorem top?_renamed (id : NodeId) : (s.renamed f m).top? id = s.top? id := by
  rw [top?,top?,size_renamed,upTo_renamed fun _ => rfl]

@[simp] theorem isBound_renamed (id : NodeId) : (s.renamed f m).isBound id = s.isBound id := by
  have bound (top : NodeId) : ((s.renamed f m).node top).isBound = (s.node top).isBound := by
    rw [node_renamed]
    rfl
  simp only [isBound,top?_renamed,bound]

@[simp] theorem unitRoot_renamed (id : NodeId) : (s.renamed f m).unitRoot id = s.unitRoot id := by
  rw [unitRoot,unitRoot,size_renamed,current_renamed,upTo_renamed fun _ => rfl]

@[simp] theorem scope_renamed (id : NodeId) : (s.renamed f m).scope id = s.scope id := by
  rw [scope,scope,current_renamed,parent_renamed]
  cases (s.node (s.current id)).parent with
  | none => rfl
  | some parent =>
    simp only [body_renamed,parent_renamed]
    cases (s.node parent).body <;> rfl

/-! ## Names and children -/

@[simp] theorem entryKey_renamed (id : NodeId) : (s.renamed f m).entryKey id = s.entryKey id := by
  rw [entryKey,entryKey,body_renamed]
  cases (s.node id).body <;> rfl

theorem childPartsWith_renamed (parts : NodeId → Except AddressIssue (List Text)) (container child : NodeId) :
    (s.renamed f m).childPartsWith parts container child = s.childPartsWith parts container child := by
  rw [childPartsWith,childPartsWith,body_renamed,entryKey_renamed,parent_renamed]
  cases (s.node container).body <;> rfl

@[simp] theorem name_renamed (id : NodeId) : (s.renamed f m).name id = s.name id := by
  have parts (steps : Nat) : (s.renamed f m).partsUpTo steps = s.partsUpTo steps := by
    induction steps with
    | zero => rfl
    | succ steps ih =>
      funext id
      rw [partsUpTo,partsUpTo,ih,current_renamed,parent_renamed]
      cases (s.node (s.current id)).parent with
      | none => rfl
      | some parent => exact childPartsWith_renamed _ parent _
  rw [name,name,Store.parts,Store.parts,size_renamed,parts]

@[simp] theorem entries_renamed (id : NodeId) : (s.renamed f m).entries id = s.entries id := by
  rw [entries,entries,body_renamed]
  cases (s.node id).body <;> rfl

@[simp] theorem keys_renamed (id : NodeId) : (s.renamed f m).keys id = s.keys id := by
  simp [keys]

@[simp] theorem findEntry_renamed (id : NodeId) (key : Text) : (s.renamed f m).findEntry id key = s.findEntry id key := by
  simp [findEntry]

@[simp] theorem exposedKey_renamed (id : NodeId) : (s.renamed f m).exposedKey id = s.exposedKey id := by
  rw [exposedKey,exposedKey,body_renamed]
  cases (s.node id).body <;> rfl

@[simp] theorem entryValue_renamed (id : NodeId) : (s.renamed f m).entryValue id = s.entryValue id := by
  have slot : (s.renamed f m).slot id = s.slot id := by
    rw [Store.slot,Store.slot,body_renamed]
    cases (s.node id).body <;> rfl
  rw [entryValue,entryValue,slot,current_renamed]

@[simp] theorem children_renamed (id : NodeId) : (s.renamed f m).children id = s.children id := by
  have current : (s.renamed f m).current = s.current := funext current_renamed
  rw [children,children,body_renamed,entryValue_renamed,current]
  cases (s.node id).body <;> rfl

@[simp] theorem definedValue?_renamed (id : NodeId) : (s.renamed f m).definedValue? id = s.definedValue? id := by
  rw [definedValue?,definedValue?,body_renamed]
  cases (s.node id).body <;> rfl

@[simp] theorem content_renamed (id : NodeId) : (s.renamed f m).content id = s.content id := by
  have content (depth : Nat) : (s.renamed f m).contentTo depth = s.contentTo depth := by
    induction depth with
    | zero => rfl
    | succ depth ih =>
      funext id
      rw [contentTo,contentTo,body_renamed]
      cases (s.node id).body with
      | mapping entries isSettled =>
        refine congrArg (fun read => Content.mapping (entries.filterMap read)) (funext fun e => ?_)
        rw [body_renamed,ih]
        cases (s.node e).body <;> rfl
      | _ => simp only [Body.renamed,ih]
  rw [Store.content,Store.content,size_renamed,content]

/-! ## Units -/

@[simp] theorem enclosingUnits_renamed (id : NodeId) : (s.renamed f m).enclosingUnits id = s.enclosingUnits id := by
  have unit (id : NodeId) : ((s.renamed f m).node id).unit = (s.node id).unit := by
    rw [node_renamed]
    rfl
  have from_ (steps : Nat) (found : List Text) (id : NodeId) :
      (s.renamed f m).enclosingUnitsFrom steps found id = s.enclosingUnitsFrom steps found id := by
    induction steps generalizing found id with
    | zero => rfl
    | succ steps ih => simp only [enclosingUnitsFrom,current_renamed,unit,above?_renamed,ih]
  rw [enclosingUnits,enclosingUnits,size_renamed,from_]

@[simp] theorem declaredNode?_renamed (id : NodeId) (path : Text) : (s.renamed f m).declaredNode? id path = s.declaredNode? id path := by
  have child : (s.renamed f m).declaredChild? = s.declaredChild? := by
    funext id part
    have value : (s.renamed f m).entryValue = s.entryValue := funext entryValue_renamed
    rw [declaredChild?,declaredChild?,body_renamed,findEntry_renamed,children_renamed,value]
    cases (s.node id).body <;> rfl
  rw [declaredNode?,declaredNode?,child]

end Store
end ConfTree
