import DataBinding.Model.Basic
import Std.Data.TreeMap

/-!
# Models — copying between models

`Expr.copy` stores a node of one model in another, its parts first.  The other model may hold some of
them already, and a part that occurs several times is copied once.
-/

namespace DataBinding

/-- The nodes of the destination that nodes of the source have been copied to. -/
abbrev Copies := Std.TreeMap NodeId Node

/-- A computation that copies nodes into the model it extends. -/
abbrev Copying := StateT Copies Building

/-- The copy made of a node before, or a new one. -/
def once (id : NodeId) (make : Copying Node) : Copying Node := do
  match (← getThe Copies)[id]? with
  | some node => return node
  | none =>
    let node ← make
    modifyThe Copies (·.insert id node)
    return node

/-- Copies a node and all its parts, reusing the copies made before. -/
def Expr.copyShared : Node → Copying Node
  | literal l text ty => once l.id do Model.intern (.literal text ty)
  | identifier l name ty => once l.id do Model.intern (.identifier name ty)
  | property l target name => once l.id do
    let target ← target.copyShared
    Model.intern (.property target name)
  | binary l left op right => once l.id do
    let left ← left.copyShared
    let right ← right.copyShared
    Model.intern (.binary left op right)
  | unary l op operand => once l.id do
    let operand ← operand.copyShared
    Model.intern (.unary op operand)
  | group l inner => once l.id do
    let inner ← inner.copyShared
    Model.intern (.group inner)
  | cast l ty operand => once l.id do
    let operand ← operand.copyShared
    Model.intern (.cast ty operand)
  | conditional l condition positive negative => once l.id do
    let condition ← condition.copyShared
    let positive ← positive.copyShared
    let negative ← negative.copyShared
    Model.intern (.conditional condition positive negative)
  | assign l target value context => once l.id do
    let target ← target.copyShared
    let value ← value.copyShared
    Model.intern (.assign target value context)

/-- Copies a node and all its parts. -/
def Expr.copy (node : Node) : Building Node := node.copyShared.run' ∅

end DataBinding
