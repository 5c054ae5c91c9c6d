import DataBinding.Expr.Key

/-!
# Expressions — trees

`Expr ι` is an expression each of whose nodes carries a label of type `ι`.  Its text, path, code and
value do not depend on the labels.

* `Expr.layer` is the outermost node over the subexpressions, and `Layer.expr` puts it back.
* `Expr.key` is the structural key, computed from the leaves up.
* `Expr.path?` is the dotted path of an identifier or of a property chain on one.
* `Expr.text` is the expression as diagnostics show it: operands stand in parentheses, so that no
  precedence is needed to read it.
-/

namespace DataBinding

/-- An expression with labelled nodes. -/
inductive Expr (ι : Type) where
  | literal (label : ι) (text ty : String)
  | identifier (label : ι) (name ty : String)
  | property (label : ι) (target : Expr ι) (name : String)
  | binary (label : ι) (left : Expr ι) (op : BinaryOp) (right : Expr ι)
  | unary (label : ι) (op : UnaryOp) (operand : Expr ι)
  | group (label : ι) (inner : Expr ι)
  | cast (label : ι) (ty : String) (operand : Expr ι)
  | conditional (label : ι) (condition positive negative : Expr ι)
  | assign (label : ι) (target value : Expr ι) (context : Context)
deriving DecidableEq, Repr

variable {ι : Type}

/-- The expression with the given outermost node. -/
def Layer.expr (label : ι) : Layer (Expr ι) → Expr ι
  | .literal text ty => .literal label text ty
  | .identifier name ty => .identifier label name ty
  | .property target name => .property label target name
  | .binary left op right => .binary label left op right
  | .unary op operand => .unary label op operand
  | .group inner => .group label inner
  | .cast ty operand => .cast label ty operand
  | .conditional condition positive negative => .conditional label condition positive negative
  | .assign target value context => .assign label target value context

namespace Expr

/-- The label of the outermost node. -/
def label : Expr ι → ι
  | literal l _ _ | identifier l _ _ | property l _ _ | binary l _ _ _ | unary l _ _ | group l _
  | cast l _ _ | conditional l _ _ _ | assign l _ _ _ => l

/-- The outermost node. -/
def layer : Expr ι → Layer (Expr ι)
  | literal _ text ty => .literal text ty
  | identifier _ name ty => .identifier name ty
  | property _ target name => .property target name
  | binary _ left op right => .binary left op right
  | unary _ op operand => .unary op operand
  | group _ inner => .group inner
  | cast _ ty operand => .cast ty operand
  | conditional _ condition positive negative => .conditional condition positive negative
  | assign _ target value context => .assign target value context

@[simp] theorem layer_expr (l : ι) (layer : Layer (Expr ι)) : (layer.expr l).layer = layer := by
  cases layer <;> rfl

@[simp] theorem label_expr (l : ι) (layer : Layer (Expr ι)) : (layer.expr l).label = l := by
  cases layer <;> rfl

@[simp] theorem expr_layer (e : Expr ι) : e.layer.expr e.label = e := by
  cases e <;> rfl

/-- The subexpressions directly below the outermost node, left to right. -/
def children (e : Expr ι) : List (Expr ι) := e.layer.children

/-- Whether the expression can stand on the left of an assignment. -/
def isAssignable (e : Expr ι) : Bool := e.layer.isAssignable

/-- The structural key. -/
def key : Expr ι → String
  | literal _ text ty => Layer.key (.literal text ty)
  | identifier _ name ty => Layer.key (.identifier name ty)
  | property _ target name => Layer.key (.property target.key name)
  | binary _ left op right => Layer.key (.binary left.key op right.key)
  | unary _ op operand => Layer.key (.unary op operand.key)
  | group _ inner => Layer.key (.group inner.key)
  | cast _ ty operand => Layer.key (.cast ty operand.key)
  | conditional _ condition positive negative =>
    Layer.key (.conditional condition.key positive.key negative.key)
  | assign _ target value context => Layer.key (.assign target.key value.key context)

/-- The dotted path, for an identifier or a property chain on one. -/
def path? : Expr ι → Option String
  | identifier _ name _ => some name
  | property _ target name => target.path?.map fun path => s!"{path}.{name}"
  | _ => none

/-- The expression as diagnostics show it. -/
def text : Expr ι → String
  | literal _ text _ => text
  | identifier _ name _ => name
  | property _ target name =>
    if target.isAssignable then s!"{target.text}.{name}" else s!"({target.text}).{name}"
  | binary _ left op right => s!"({left.text}) {op.symbol} ({right.text})"
  | unary _ op operand => s!"{op.symbol}({operand.text})"
  | group _ inner => s!"({inner.text})"
  | cast _ ty operand => s!"({ty}) ({operand.text})"
  | conditional _ condition positive negative =>
    s!"({condition.text}) ? ({positive.text}) : ({negative.text})"
  | assign _ target value _ => s!"{target.text} = {value.text}"

end Expr

end DataBinding
