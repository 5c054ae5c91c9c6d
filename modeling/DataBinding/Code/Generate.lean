import DataBinding.Code.Draft
import DataBinding.Expr.Basic
import DataBinding.Text.Uppercase

/-!
# Code — generation

`Expr.fragments` writes an expression as code.  Operands always stand in parentheses, so the code is
right whatever the precedence rules of the language it is written in.  An assignment to an identifier
or a property calls a setter, whose name is the setter word followed by the capitalized name.

* `Expr.code` collects the fragments in a draft.
* `Expr.plainCode` appends their texts to a string.
-/

namespace DataBinding

/-- The word that setter names start with by default. -/
def defaultSetter : String := "set"

/-- The name of the setter of a property or variable. -/
def setterName (setter property : String) : String := setter ++ capitalize property

namespace Expr

variable {ι : Type}

/-- Fragments as a nested part. -/
def nest (fragments : List Fragment) : List Fragment := .enter :: fragments ++ [.leave]

/-- The owner of a property: in parentheses unless it is assignable. -/
def owner (assignable : Bool) (fragments : List Fragment) : List Fragment :=
  if assignable then nest fragments else .text "(" :: nest fragments ++ [.text ")"]

/-- The code of an expression. -/
def fragments (setter : String) : Expr ι → List Fragment
  | literal _ text _ => [.text text]
  | identifier _ name _ => [.text name]
  | property _ target name =>
    owner target.isAssignable (target.fragments setter) ++ [.text ".", .text name]
  | binary _ left op right =>
    .text "(" :: nest (left.fragments setter) ++ [.text ") ", .text op.symbol, .text " ("] ++
      nest (right.fragments setter) ++ [.text ")"]
  | unary _ op operand =>
    [.text op.symbol, .text "("] ++ nest (operand.fragments setter) ++ [.text ")"]
  | group _ inner => .text "(" :: nest (inner.fragments setter) ++ [.text ")"]
  | cast _ ty operand =>
    [.text "((", .text ty, .text ") ("] ++ nest (operand.fragments setter) ++ [.text "))"]
  | conditional _ condition positive negative =>
    .text "(" :: nest (condition.fragments setter) ++ [.text ") ? ("] ++
      nest (positive.fragments setter) ++ [.text ") : ("] ++
      nest (negative.fragments setter) ++ [.text ")"]
  | assign _ (identifier _ name _) value context =>
    [.text context.className, .text ".", .text (setterName setter name), .text "("] ++
      nest (value.fragments setter) ++ [.text ")"]
  | assign _ (property _ target name) value _ =>
    owner target.isAssignable (target.fragments setter) ++
      [.text ".", .text (setterName setter name), .text "("] ++
      nest (value.fragments setter) ++ [.text ")"]
  | assign _ target value _ =>
    nest (target.fragments setter) ++ [.text " = "] ++ nest (value.fragments setter)

/-- The code of an expression as a draft collects it. -/
def code (setter : String) (e : Expr ι) : String :=
  (({} : CodeDraft).writeAll (e.fragments setter)).finish

/-- The code of an expression, with the texts appended as they come. -/
def plainCode (setter : String) (e : Expr ι) : String := Fragment.plain (e.fragments setter)

end Expr

end DataBinding
