import DataBinding.Inverse.Rearrange
import DataBinding.Model.Copy
import DataBinding.Model.Typing

/-!
# Inversion

To write a value through an expression is to solve `expression = value` for the one variable or
property in it that can change.  Each step down turns "this node equals `value`" into "its part that
can change equals `value'`", where `value'` is stored in a destination model; at the variable the
equation becomes an assignment.

* `Inverse.check` decides whether the steps can be taken, without taking them.
* `Inverse.solve` takes them.

Both ask the same gates at every node.  Solving asks in addition for the type of what a cast
converts, so it can fail where checking does not.
-/

namespace DataBinding.Inverse

/-- The number of steps down that are allowed by default. -/
def defaultLimit : Nat := 256

/-! ### Gates -/

/-- Refuses a node. -/
def refuse {α : Type} (node : Node) (obstacle : Obstacle) : Typing BindingError α :=
  throw (.notInvertible obstacle.reason node.text)

/-- Refuses more steps than allowed. -/
def depthGate (limit depth : Nat) : Typing BindingError Unit :=
  if limit < depth then throw (.depthExceeded limit) else pure ()

/-- Refuses a node below which nothing can change. -/
def dynamicGate (node part : Node) (obstacle : Obstacle) : Typing BindingError Unit :=
  if part.label.dynamic then pure () else refuse node obstacle

/-- Refuses remainders, concatenations, and operands of which not exactly one can change; tells which
one can. -/
def binaryGate (R : Resolver) (node left : Node) (op : BinaryOp) (right : Node) :
    Typing BindingError Side := do
  if op = .rem then refuse node .modulus
  else
    let ty ← R.nodeType node
    if R.isString ty then refuse node .concatenation
    else match Side.of? left.label.dynamic right.label.dynamic with
      | some side => return side
      | none => refuse node (.operands op)

/-! ### Checking -/

/-- Whether a node at the given depth can be written through. -/
def checkAt (R : Resolver) (limit depth : Nat) (node : Node) : Typing BindingError Unit := do
  depthGate limit depth
  match node with
  | .identifier _ _ _ => return
  | .property _ target _ => dynamicGate node target .constantOwner
  | .binary _ left op right =>
    match ← binaryGate R node left op right with
    | .left => checkAt R limit (depth + 1) left
    | .right => checkAt R limit (depth + 1) right
  | .unary _ _ operand | .cast _ _ operand =>
    dynamicGate node operand .constantOperand
    checkAt R limit (depth + 1) operand
  | .group _ inner => checkAt R limit (depth + 1) inner
  | .literal _ _ _ => refuse node .constant
  | .conditional _ _ _ _ => refuse node .conditional
  | .assign _ _ _ _ => refuse node .assignment

/-- Whether a node can be the target of a two-way binding. -/
def check (R : Resolver) (limit : Nat) (node : Node) : Typing BindingError Unit :=
  checkAt R limit 0 node

/-! ### Solving -/

/-- What solving works on: the types kept by the source, and the destination. -/
structure Workspace where
  types : TypeCache
  dest : Model

/-- A computation that solves an equation. -/
abbrev Solving := ExceptT BindingError (StateT Workspace Logged)

/-- Asks for types in the source. -/
def inSource {α : Type} (x : Typing BindingError α) : Solving α := fun w => do
  let (result, types) ← x w.types
  return (result, { w with types })

/-- Builds in the destination. -/
def inDest {α : Type} (x : ExceptT BindingError Building α) : Solving α := fun w => do
  let (result, dest) ← x w.dest
  return (result, { w with dest })

/-- Reports the equation to be solved. -/
def announce (node : Node) (value : NodeId) : Solving Unit := do
  Logged.emit (.inverting node ((← getThe Workspace).dest.node? value))

/-- Assigns the value to a variable or property, copied into the destination. -/
def assign (target : Node) (value : NodeId) (context : Context) : Solving Node := inDest do
  let target ← target.copy
  Model.add (.assign target.label.id value context)

/-- Solves `node = value`, for a node at the given depth and a value of the destination.  A unary
operator undoes itself, and a cast is undone by a cast to the type of what it converts. -/
def solveAt (R : Resolver) (limit : Nat) (context : Context) (depth : Nat) (node : Node)
    (value : NodeId) : Solving Node := do
  inSource (depthGate limit depth)
  announce node value
  match node with
  | .identifier _ _ _ => assign node value context
  | .property _ target _ =>
    inSource (dynamicGate node target .constantOwner)
    assign node value context
  | .binary _ left op right =>
    match ← inSource (binaryGate R node left op right) with
    | .left =>
      let value ← inDest do Model.rearrange op .left value (← right.copy).label.id
      solveAt R limit context (depth + 1) left value.label.id
    | .right =>
      let value ← inDest do Model.rearrange op .right value (← left.copy).label.id
      solveAt R limit context (depth + 1) right value.label.id
  | .unary _ op operand =>
    inSource (dynamicGate node operand .constantOperand)
    let value ← inDest (Model.add (.unary op value))
    solveAt R limit context (depth + 1) operand value.label.id
  | .cast _ _ operand =>
    inSource (dynamicGate node operand .constantOperand)
    let source ← inSource (R.nodeType operand)
    let value ← inDest (Model.add (.cast source.name value))
    solveAt R limit context (depth + 1) operand value.label.id
  | .group _ inner => solveAt R limit context (depth + 1) inner value
  | .literal _ _ _ => inSource (refuse node .constant)
  | .conditional _ _ _ _ => inSource (refuse node .conditional)
  | .assign _ _ _ _ => inSource (refuse node .assignment)

/-- The assignment, stored in the destination, that makes a node equal to a value of the
destination. -/
def solve (R : Resolver) (limit : Nat) (context : Context) (node : Node) (value : NodeId) :
    Solving Node :=
  solveAt R limit context 0 node value

end DataBinding.Inverse
