import DataBinding.Expr.Basic
import DataBinding.Number.Numeral
import DataBinding.Number.Shortest

/-!
# Expressions — values

The values that expressions take: 64-bit integers, doubles, truth values and texts.  Integer
arithmetic wraps around, and integer division goes toward zero.

`Literal.read?` reads the text of a literal as a value of its declared type:

* an integer type takes an integer and any run of the letter `l` behind it;
* a floating type takes a double and any run of the letters `f` and `d` behind it;
* `boolean` takes `true` or `false`;
* `String` and `char` take a text between two quotes, single or double.
-/

namespace DataBinding

/-- The kinds of values. -/
inductive ValueKind where
  | int
  | float
  | boolean
  | string
deriving DecidableEq, Repr

def ValueKind.name : ValueKind → String
  | int => "int"
  | float => "float"
  | boolean => "boolean"
  | string => "string"

/-- A value of an expression. -/
inductive Value where
  | int (n : Int64)
  | float (x : Float)
  | bool (b : Bool)
  | str (s : String)

namespace Value

/-- Values of different kinds differ, and doubles compare as numbers: no double equals one that is
no number, and both zeros are equal. -/
instance : BEq Value where
  beq
    | int m, int n => m == n
    | float x, float y => x == y
    | bool a, bool b => a == b
    | str s, str t => s == t
    | _, _ => false

def kind : Value → ValueKind
  | int _ => .int
  | float _ => .float
  | bool _ => .boolean
  | str _ => .string

/-- The value as a double, if it is a number. -/
def toFloat? : Value → Option Float
  | int n => some n.toFloat
  | float x => some x
  | bool _ | str _ => none

/-- The value as it appears in a text. -/
def text : Value → String
  | int n => toString n.toInt
  | float x => Binary64.text x
  | bool b => if b then "true" else "false"
  | str s => s

end Value

/-! ### Literals -/

namespace Literal

/-- How the values of a type are written and represented. -/
inductive Form where
  | integer
  | floating
  | truth
  | quoted
deriving DecidableEq, Repr

/-- The form of the values of a named type. -/
def Form.ofType? : String → Option Form
  | "byte" | "short" | "int" | "long" => some integer
  | "float" | "double" => some floating
  | "boolean" => some truth
  | "String" | "char" => some quoted
  | _ => none

/-- Drops the longest end of the text that consists of the given characters. -/
def trimEnd (suffix : List Char) (text : List Char) : List Char :=
  (text.reverse.dropWhile suffix.contains).reverse

def isQuote (c : Char) : Bool := c = '"' || c = '\''

/-- The text between a first and a last quote. -/
def unquote? : List Char → Option (List Char)
  | [] => none
  | first :: rest =>
    match rest.getLast? with
    | some last => if isQuote first && isQuote last then some rest.dropLast else none
    | none => none

/-- Reads a text in the given form. -/
def Form.read? (text : List Char) : Form → Option Value
  | integer => (Numeral.int64? (trimEnd ['l', 'L'] text)).map .int
  | floating => (Numeral.float? (trimEnd ['f', 'F', 'd', 'D'] text)).map .float
  | truth =>
    if text = "true".toList then some (.bool true)
    else if text = "false".toList then some (.bool false)
    else none
  | quoted => (unquote? text).map fun s => .str (String.ofList s)

/-- Reads the text of a literal of the named type. -/
def read? (text ty : String) : Option Value :=
  (Form.ofType? ty).bind (Form.read? text.toList)

end Literal

end DataBinding
