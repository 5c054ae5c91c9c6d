import DataBinding.Expr.Value

/-!
# Expressions — evaluation

`Expr.eval env e` is the value of `e` when identifiers and property chains take the values that `env`
gives to their paths.  An assignment evaluates to the value that it would write.

Operands are evaluated from left to right, and the first failure is the outcome.
-/

namespace DataBinding

/-! ### Environments -/

/-- The values bound to dotted paths. -/
abbrev Env := String → Option Value

namespace Env

def empty : Env := fun _ => none

/-- The environment with `path` bound to `value`. -/
def set (env : Env) (path : String) (value : Value) : Env :=
  fun p => if p = path then some value else env p

end Env

/-! ### Failures -/

/-- Why an expression has no value. -/
inductive EvalError where
  | unbound (path : String)
  | badLiteral (text ty : String)
  | mismatch (operator : String) (operands : List ValueKind)
  | divisionByZero
  | notAPath
deriving DecidableEq, Repr

/-- The wording of an evaluation error. -/
def EvalError.message : EvalError → String
  | unbound path => s!"no value bound for `{path}`"
  | badLiteral text ty => s!"invalid {ty} literal `{text}`"
  | mismatch operator operands =>
    s!"cannot apply `{operator}` to " ++ " and ".intercalate (operands.map ValueKind.name)
  | divisionByZero => "division by zero"
  | notAPath => "property access requires a variable path"

/-! ### Operators -/

namespace BinaryOp

/-- The operator on integers. -/
def onInts (op : BinaryOp) (m n : Int64) : Except EvalError Int64 :=
  match op with
  | add => .ok (m + n)
  | sub => .ok (m - n)
  | mul => .ok (m * n)
  | div => if n = 0 then .error .divisionByZero else .ok (m / n)
  | rem => if n = 0 then .error .divisionByZero else .ok (m % n)

/-- The operator on doubles. -/
def onFloats (op : BinaryOp) (x y : Float) : Float :=
  match op with
  | add => x + y
  | sub => x - y
  | mul => x * y
  | div => x / y
  | rem => Binary64.remainder x y

/-- The operator on values: an addition with a text on either side concatenates, two integers stay
integers, and other numbers become doubles. -/
def apply (op : BinaryOp) (left right : Value) : Except EvalError Value :=
  match op, left, right with
  | add, .str l, r => .ok (.str (l ++ r.text))
  | add, l, .str r => .ok (.str (l.text ++ r))
  | op, .int m, .int n => (op.onInts m n).map .int
  | op, l, r =>
    match l.toFloat?, r.toFloat? with
    | some x, some y => .ok (.float (op.onFloats x y))
    | _, _ => .error (.mismatch op.symbol [l.kind, r.kind])

end BinaryOp

/-- The operator on a value. -/
def UnaryOp.apply (op : UnaryOp) (operand : Value) : Except EvalError Value :=
  match op, operand with
  | neg, .int n => .ok (.int (-n))
  | neg, .float x => .ok (.float (-x))
  | not, .bool b => .ok (.bool !b)
  | bitNot, .int n => .ok (.int (~~~n))
  | op, v => .error (.mismatch op.symbol [v.kind])

/-- The value converted to the named type.  Only a number changes, and only between integers and
doubles. -/
def Value.cast (ty : String) (v : Value) : Value :=
  match Literal.Form.ofType? ty, v with
  | some .integer, .float x => .int (Binary64.toInt64 x)
  | some .floating, .int n => .float n.toFloat
  | _, v => v

/-! ### Evaluation -/

/-- The value bound to a path, where there is a path. -/
def Env.read (env : Env) : Option String → Except EvalError Value
  | none => .error .notAPath
  | some path =>
    match env path with
    | some v => .ok v
    | none => .error (.unbound path)

/-- The value of a literal. -/
def Literal.eval (text ty : String) : Except EvalError Value :=
  match Literal.read? text ty with
  | some v => .ok v
  | none => .error (.badLiteral text ty)

/-- The value of an expression. -/
def Expr.eval {ι : Type} (env : Env) : Expr ι → Except EvalError Value
  | literal _ text ty => Literal.eval text ty
  | identifier _ name _ => env.read (some name)
  | property l target name => env.read (property l target name).path?
  | binary _ left op right => do
    let a ← left.eval env
    let b ← right.eval env
    op.apply a b
  | unary _ op operand => do op.apply (← operand.eval env)
  | group _ inner => inner.eval env
  | cast _ ty operand => return (← operand.eval env).cast ty
  | conditional _ condition positive negative => do
    match ← condition.eval env with
    | .bool true => positive.eval env
    | .bool false => negative.eval env
    | other => throw (.mismatch "?:" [other.kind])
  | assign _ _ value _ => value.eval env

end DataBinding
