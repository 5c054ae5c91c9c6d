import DataBinding.Model.Basic
import DataBinding.Types.Resolver

/-!
# Models — types of nodes

The type of a node is asked of a resolver the first time it is needed, and kept.  A node whose type
cannot be found keeps none, though its parts may.

`Resolver.typeOf` states the rules for one node from the types of its parts.  Which parts are asked,
and in which order, is part of the rule: a cast, a negation and an assignment do not ask for all.
-/

namespace DataBinding

/-- A computation that asks for types, keeps those it finds, and reports what it does. -/
abbrev Typing (ε : Type) := ExceptT ε (StateT TypeCache Logged)

namespace Typing

/-- The type kept for a node, or else the one found now. -/
def remember (id : NodeId) (find : Typing TypeError Ty) : Typing TypeError Ty := do
  match ((← getThe TypeCache)[id]?).join with
  | some ty =>
    Logged.emit (.typeKnown id ty)
    return ty
  | none =>
    let ty ← find
    modifyThe TypeCache (·.setIfInBounds id (some ty))
    return ty

end Typing

namespace Resolver

/-- The type of an arithmetic expression: an addition with a string on either side is a string. -/
def binaryType (R : Resolver) (op : BinaryOp) (left right : Ty) : Except TypeError Ty :=
  if op = .add ∧ (R.isString left ∨ R.isString right) then R.stringType
  else R.commonAncestor left right

/-- The type of a node, found by the resolver where the node keeps none. -/
def typeOf (R : Resolver) : Node → Typing TypeError Ty
  | .literal l _ ty => Typing.remember l.id (R.findType ty)
  | .identifier l _ ty => Typing.remember l.id (R.findType ty)
  | .property l target name => Typing.remember l.id do
    let owner ← R.typeOf target
    R.propertyType owner name
  | .binary l left op right => Typing.remember l.id do
    let a ← R.typeOf left
    let b ← R.typeOf right
    R.binaryType op a b
  | .unary l .not _ => Typing.remember l.id R.booleanType
  | .unary l _ operand => Typing.remember l.id (R.typeOf operand)
  | .group l inner => Typing.remember l.id (R.typeOf inner)
  | .cast l ty _ => Typing.remember l.id (R.findType ty)
  | .conditional l _ positive negative => Typing.remember l.id do
    let a ← R.typeOf positive
    let b ← R.typeOf negative
    R.commonAncestor a b
  | .assign l target _ _ => Typing.remember l.id (R.typeOf target)

/-- The type of a node, with its failure as one of compiling a binding. -/
def nodeType (R : Resolver) (node : Node) : Typing BindingError Ty := (R.typeOf node).adapt .type

end Resolver

/-- Runs a computation about types on the types that a model keeps. -/
def Typing.onModel {ε α : Type} (x : Typing ε α) : ExceptT ε Building α := fun m => do
  let (result, types) ← x m.types
  return (result, { m with types })

end DataBinding
