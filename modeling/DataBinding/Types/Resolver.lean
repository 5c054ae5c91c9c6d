import DataBinding.Types.Basic

/-!
# Types — resolvers

A resolver answers what typing asks of the language that hosts the bindings.  Typing, inversion and
compilation take any resolver; `TypeTable.resolver` is the one that a table of classes gives.

`Resolver.hosted` replaces a resolver's notion of strings and booleans by the host's own names.
-/

namespace DataBinding

/-- The questions that typing asks. -/
structure Resolver where
  /-- The type of a given name. -/
  findType : String → Except TypeError Ty
  /-- Whether values of the type behave like strings. -/
  isString : Ty → Bool
  /-- The narrowest type that values of both types can be treated as. -/
  commonAncestor : Ty → Ty → Except TypeError Ty
  /-- The type of a property of a type. -/
  propertyType : Ty → String → Except TypeError Ty
  /-- The type of a concatenation. -/
  stringType : Except TypeError Ty
  /-- The type of a logical negation. -/
  booleanType : Except TypeError Ty

/-- The type of the given name, or an error that names what the host lacks. -/
def Resolver.hostType (lacking : String) : Option String → Except TypeError Ty
  | some name => .ok ⟨name⟩
  | none => .error (.typeNotFound lacking)

/-- A resolver whose host has its own strings and booleans: exactly the types named in
`stringNames` are strings, and concatenation and negation have the given types, unchecked, where the
host has any. -/
def Resolver.hosted (base : Resolver) (stringNames : List String)
    (stringType booleanType : Option String) : Resolver :=
  { base with
    isString := fun t => stringNames.contains t.name
    stringType := hostType "<string>" stringType
    booleanType := hostType "<boolean>" booleanType }

end DataBinding
