import DataBinding.Model.Basic

/-!
# Inversion — rearranging an equation

An arithmetic expression with one operand that can change is an equation for that operand:
`x - c = v` says `x = v + c`, and `c - x = v` says `x = c - v`.

* `Side.of?` tells which operand can change.
* `Rearrangement.of?` is the table of rules.  The remainder has none.
-/

namespace DataBinding

/-- The operand that can change, of two of which the other cannot. -/
inductive Side where
  | left
  | right
deriving DecidableEq, Repr

namespace Side

/-- The side that can change, if exactly one can. -/
def of? (left right : Bool) : Option Side :=
  match left, right with
  | true, false => some .left
  | false, true => some .right
  | true, true | false, false => none

/-- Puts the operand that can change first. -/
def split {α : Type} (side : Side) (l r : α) : α × α :=
  match side with
  | left => (l, r)
  | right => (r, l)

end Side

/-- What an operand has to equal: `value op constant`, or `constant op value`. -/
structure Rearrangement where
  op : BinaryOp
  valueFirst : Bool
deriving DecidableEq, Repr

namespace Rearrangement

/-- The rule for the operand on the given side of the operator. -/
def of? (op : BinaryOp) (side : Side) : Option Rearrangement :=
  match op, side with
  | .add, _ => some ⟨.sub, true⟩
  | .mul, _ => some ⟨.div, true⟩
  | .sub, .left => some ⟨.add, true⟩
  | .sub, .right => some ⟨.sub, false⟩
  | .div, .left => some ⟨.mul, true⟩
  | .div, .right => some ⟨.div, false⟩
  | .rem, _ => none

/-- The right-hand side of the rearranged equation. -/
def layer {α : Type} (r : Rearrangement) (value constant : α) : Layer α :=
  if r.valueFirst then .binary value r.op constant else .binary constant r.op value

end Rearrangement

/-- Stores what the operand on the given side has to equal. -/
def Model.rearrange (op : BinaryOp) (side : Side) (value constant : NodeId) :
    ExceptT BindingError Building Node :=
  match Rearrangement.of? op side with
  | some r => Model.add (r.layer value constant)
  | none => throw (.invalidOperator op)

end DataBinding
