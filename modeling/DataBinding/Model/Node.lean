import DataBinding.Expr.Basic

/-!
# Models — nodes

A node of a model is an expression whose every part carries its place in the model, its structural
key, and whether its value can change while the program runs.  Parts that are stored once are shared,
so a node costs no more than its outermost layer.

`Node.dependencies` are the edges along which changes reach a node.
-/

namespace DataBinding

/-- The place of a node in its model, counted from zero. -/
abbrev NodeId := Nat

namespace NodeId

/-- A node's place as messages show it. -/
def text (id : NodeId) : String := s!"#{id}"

/-- The place with its kind written around it, for inspection. -/
def inspect (id : NodeId) : String := s!"Node({id})"

end NodeId

/-- What a model records of a node. -/
structure NodeLabel where
  id : NodeId
  key : String
  /-- Whether the value can change while the program runs. -/
  dynamic : Bool
deriving DecidableEq, Repr

/-- A node of a model. -/
abbrev Node := Expr NodeLabel

/-- Whether a node can change while the program runs, from whether its children can: an identifier
can, and what is made of parts that cannot change cannot. -/
def Layer.isDynamic : Layer Bool → Bool
  | .literal _ _ => false
  | .identifier _ _ => true
  | layer => layer.children.any id

/-- An edge of change propagation: when `other` changes, `dependant` has to be evaluated again. -/
structure Dependency where
  dependant : NodeId
  other : NodeId
deriving DecidableEq, Repr

/-- The edges from a node to those of its children that can change, in their order. -/
def Node.dependencies (node : Node) : List Dependency :=
  (node.children.filter (·.label.dynamic)).map fun child => ⟨node.label.id, child.label.id⟩

end DataBinding
