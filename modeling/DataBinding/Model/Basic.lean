import DataBinding.Log
import DataBinding.Model.KeyIndex

/-!
# Models

A model stores each expression once.  A node is known by its place in the model, and its children
stand before it.  A request for a node whose structural key is taken is answered with the node that
has the key.

* `Model.intern` finds or stores a node over nodes of the model.
* `Model.add` does so for children given by their places, at which there may be no node.
* `Model.dependantsOf` follows the edges of change propagation backwards.
-/

namespace DataBinding

/-- The types found so far, by node. -/
abbrev TypeCache := Array (Option Ty)

/-- The nodes of one compilation unit. -/
structure Model where
  nodes : Array Node := #[]
  keys : KeyIndex Node := {}
  /-- For each node, the nodes with an edge to it, in the order of their creation. -/
  dependants : Array (List NodeId) := #[]
  types : TypeCache := #[]
  roots : List NodeId := []

/-- A computation that extends a model and reports what it does. -/
abbrev Building := StateT Model Logged

namespace Model

def size (m : Model) : Nat := m.nodes.size

def isEmpty (m : Model) : Bool := m.nodes.isEmpty

/-- The node at a place. -/
def node? (m : Model) (id : NodeId) : Option Node := m.nodes[id]?

/-- The place of the node with a structural key. -/
def lookup (m : Model) (key : String) : Option NodeId := (m.keys.get? key).map (·.label.id)

/-- The nodes that directly depend on a node. -/
def dependantsOf (m : Model) (id : NodeId) : List NodeId := (m.dependants[id]?).getD []

/-- The type found for a node, if it has been asked for with success. -/
def cachedType? (m : Model) (id : NodeId) : Option Ty := (m.types[id]?).join

/-- Marks a node as a root of the compilation unit. -/
def markRoot (m : Model) (id : NodeId) : Model :=
  if id ∈ m.roots then m else { m with roots := m.roots ++ [id] }

/-- Adds a dependant to a list of them, once. -/
def addDependant (id : NodeId) (dependants : List NodeId) : List NodeId :=
  if id ∈ dependants then dependants else dependants ++ [id]

/-- Stores a node at the end of the model. -/
def push (m : Model) (node : Node) : Model :=
  { m with
    nodes := m.nodes.push node
    keys := (m.keys.insert node.label.key node).2
    dependants := (node.dependencies.foldl
      (fun table edge => table.modify edge.other (addDependant edge.dependant)) m.dependants).push []
    types := m.types.push none }

/-- The node that a request for the given layer creates in a model that has none with its key. -/
def freshNode (m : Model) (layer : Layer Node) : Node :=
  layer.expr
    { id := m.size
      key := (layer.map (·.label.key)).key
      dynamic := (layer.map (·.label.dynamic)).isDynamic }

/-- Finds the node with the layer's key, or stores a new one. -/
def intern (layer : Layer Node) : Building Node := fun m => do
  let key := (layer.map (·.label.key)).key
  match m.keys.get? key with
  | some node =>
    Logged.emit (.reused node.label.id key)
    return (node, m)
  | none =>
    let node := m.freshNode layer
    Logged.emit (.interned node.label.id key)
    return (node, m.push node)

/-- Finds or stores an identifier.  The type of its first declaration is kept. -/
def declare (name ty : String) : Building Node := do
  let node ← intern (.identifier name ty)
  match node with
  | .identifier _ _ declared =>
    if declared ≠ ty then Logged.emit (.redeclared name ty declared)
  | _ => pure ()
  return node

/-- Finds or stores a node over nodes of the model. -/
def place : Layer Node → Building Node
  | .identifier name ty => declare name ty
  | layer => intern layer

/-- The layer over the nodes at the places of its children, where nodes have to be. -/
def known (m : Model) (layer : Layer NodeId) : Except BindingError (Layer Node) :=
  layer.mapM fun id =>
    match m.node? id with
    | some node => .ok node
    | none => .error (.unknownNode id)

/-- Finds or stores a node whose children are given by their places. -/
def add (layer : Layer NodeId) : ExceptT BindingError Building Node := fun m =>
  match m.known layer with
  | .error e => pure (.error e, m)
  | .ok layer => do
    let (node, m) ← place layer m
    return (.ok node, m)

end Model

end DataBinding
