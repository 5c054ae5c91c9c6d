import DataBinding.Expr.Layer

/-!
# Expressions — structural keys

A structural key is a text that tells expressions apart.  The key of a leaf gives the length of its
text before the text; the key of any other node lists the keys of its children and its own names in
parentheses, behind the name of its shape.  The declared type of an identifier has no part in its
key, so that a name is one identifier however often it is declared.
-/

namespace DataBinding

namespace Key

/-- What stands between the parts of a key. -/
def separator : String := "~"

/-- The key of a node from its parts. -/
def join (tag : String) (parts : List String) : String :=
  tag ++ "(" ++ separator.intercalate parts ++ ")"

/-- The key of a leaf: its length in UTF-8 bytes, then its text. -/
def leaf (tag text : String) : String := s!"{tag}:{text.utf8ByteSize}:{text}"

end Key

/-- The structural key of a node from the keys of its children. -/
def Layer.key (layer : Layer String) : String :=
  match layer with
  | .literal text ty => Key.leaf s!"{layer.tag}:{ty}" text
  | .identifier name _ => Key.leaf layer.tag name
  | .property target name => Key.join layer.tag [target, name]
  | .binary left op right => Key.join layer.tag [left, op.symbol, right]
  | .unary op operand => Key.join layer.tag [op.symbol, operand]
  | .group inner => Key.join layer.tag [inner]
  | .cast ty operand => Key.join layer.tag [ty, operand]
  | .conditional condition positive negative => Key.join layer.tag [condition, positive, negative]
  | .assign target value context => Key.join layer.tag [target, value, context.className]

end DataBinding
