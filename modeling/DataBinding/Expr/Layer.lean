/-!
# Expressions — one layer

`Layer α` is one node of an expression, with whatever stands for its children in the places of type
`α`: places of nodes, nodes, structural keys.  The nine shapes are literals, identifiers,
property accesses, arithmetic, unary operators, groups, casts, conditionals and assignments.
-/

namespace DataBinding

/-! ### Operators -/

/-- The binary arithmetic operators. -/
inductive BinaryOp where
  | add
  | sub
  | mul
  | div
  | rem
deriving DecidableEq, Repr

namespace BinaryOp

def all : List BinaryOp := [add, sub, mul, div, rem]

def symbol : BinaryOp → String
  | add => "+"
  | sub => "-"
  | mul => "*"
  | div => "/"
  | rem => "%"

end BinaryOp

/-- The unary operators. -/
inductive UnaryOp where
  | neg
  | not
  | bitNot
deriving DecidableEq, Repr

namespace UnaryOp

def all : List UnaryOp := [neg, not, bitNot]

def symbol : UnaryOp → String
  | neg => "-"
  | not => "!"
  | bitNot => "~"

end UnaryOp

/-! ### Layers -/

/-- The class whose code holds an assignment. -/
structure Context where
  className : String
deriving DecidableEq, Repr, Inhabited

/-- The context with its kind written around it, for inspection. -/
def Context.inspect (c : Context) : String := s!"BindingContext({c.className})"

/-- One node of an expression over children of type `α`. -/
inductive Layer (α : Type) where
  | literal (text ty : String)
  | identifier (name ty : String)
  | property (target : α) (name : String)
  | binary (left : α) (op : BinaryOp) (right : α)
  | unary (op : UnaryOp) (operand : α)
  | group (inner : α)
  | cast (ty : String) (operand : α)
  | conditional (condition positive negative : α)
  | assign (target value : α) (context : Context)
deriving DecidableEq, Repr

namespace Layer

variable {α β : Type}

/-- The children, left to right. -/
def children : Layer α → List α
  | literal _ _ | identifier _ _ => []
  | property target _ => [target]
  | binary left _ right => [left, right]
  | unary _ operand => [operand]
  | group inner => [inner]
  | cast _ operand => [operand]
  | conditional condition positive negative => [condition, positive, negative]
  | assign target value _ => [target, value]

/-- Replaces every child. -/
def map (f : α → β) : Layer α → Layer β
  | literal text ty => literal text ty
  | identifier name ty => identifier name ty
  | property target name => property (f target) name
  | binary left op right => binary (f left) op (f right)
  | unary op operand => unary op (f operand)
  | group inner => group (f inner)
  | cast ty operand => cast ty (f operand)
  | conditional condition positive negative => conditional (f condition) (f positive) (f negative)
  | assign target value context => assign (f target) (f value) context

/-- Replaces every child, left to right, by the result of a computation. -/
def mapM {m : Type → Type} [Monad m] (f : α → m β) : Layer α → m (Layer β)
  | literal text ty => pure (literal text ty)
  | identifier name ty => pure (identifier name ty)
  | property target name => return property (← f target) name
  | binary left op right => return binary (← f left) op (← f right)
  | unary op operand => return unary op (← f operand)
  | group inner => return group (← f inner)
  | cast ty operand => return cast ty (← f operand)
  | conditional condition positive negative =>
    return conditional (← f condition) (← f positive) (← f negative)
  | assign target value context => return assign (← f target) (← f value) context

/-- The word for the shape in structural keys. -/
def tag : Layer α → String
  | literal _ _ => "lit"
  | identifier _ _ => "id"
  | property _ _ => "field"
  | binary _ _ _ => "math"
  | unary _ _ => "unary"
  | group _ => "group"
  | cast _ _ => "cast"
  | conditional _ _ _ => "ternary"
  | assign _ _ _ => "assign"

/-- Whether the node can stand on the left of an assignment. -/
def isAssignable : Layer α → Bool
  | identifier _ _ | property _ _ => true
  | _ => false

theorem children_map (f : α → β) (layer : Layer α) :
    (layer.map f).children = layer.children.map f := by
  cases layer <;> rfl

end Layer

end DataBinding
