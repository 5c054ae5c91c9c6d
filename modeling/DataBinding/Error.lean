import DataBinding.Model.Node
import DataBinding.Types.Basic

/-!
# Errors of typing and inversion

`Obstacle` lists what keeps an expression from being the target of a two-way binding, and `BindingError`
the failures of compiling a binding.
-/

namespace DataBinding

/-- What keeps a node from being written through. -/
inductive Obstacle where
  | modulus
  | concatenation
  /-- Both operands can change, or neither can. -/
  | operands (op : BinaryOp)
  | constantOperand
  | constantOwner
  | constant
  | conditional
  | assignment
deriving DecidableEq, Repr

/-- The wording of an obstacle. -/
def Obstacle.reason : Obstacle → String
  | modulus => "The modulus operator (%) is not supported in two-way binding"
  | concatenation => "String concatenation operator (+) is not supported in two-way binding"
  | operands op => s!"Arithmetic operator {op.symbol} requires exactly one dynamic operand"
  | constantOperand => "The operand is a constant"
  | constantOwner => "A property of a constant cannot be the target of a two-way binding"
  | constant => "A constant cannot be the target of a two-way binding"
  | conditional => "The conditional operator (?:) is not supported in two-way binding"
  | assignment => "An assignment cannot be the target of a two-way binding"

/-- Why a binding does not compile. -/
inductive BindingError where
  | notInvertible (reason expr : String)
  /-- An operator that no rearrangement undoes was to be undone. -/
  | invalidOperator (op : BinaryOp)
  | depthExceeded (limit : Nat)
  | type (error : TypeError)
  /-- The model has no node at the place. -/
  | unknownNode (id : NodeId)
deriving DecidableEq, Repr

namespace BindingError

/-- The wording of an error. -/
def message : BindingError → String
  | notInvertible reason expr => s!"{reason}: {expr}"
  | invalidOperator op => s!"math operator `{op.symbol}` reached inversion but has no inverse"
  | depthExceeded limit => s!"inversion exceeded the maximum depth of {limit}"
  | type error => error.message
  | unknownNode id => s!"node {id.text} is not in the model"

/-- Whether the error is a fault of the compiler and not of the expression. -/
def isFatal : BindingError → Bool
  | invalidOperator _ => true
  | _ => false

end BindingError

end DataBinding
