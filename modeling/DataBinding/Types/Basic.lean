/-!
# Types — names and errors

A type is known by its name.  `TypeError` lists the ways in which a question about types can fail.
-/

namespace DataBinding

/-- A type, known by its name. -/
structure Ty where
  name : String
deriving DecidableEq, Repr, Inhabited

namespace Ty

instance : ToString Ty := ⟨Ty.name⟩

/-- Types are ordered by name, code point by code point. -/
instance : Ord Ty := ⟨fun a b => compare a.name b.name⟩

/-- The type with its kind written around it, for inspection. -/
def inspect (t : Ty) : String := s!"Ty({t})"

end Ty

/-- Why a question about types has no answer. -/
inductive TypeError where
  | typeNotFound (name : String)
  | propertyNotFound (owner property : String)
  | noCommonAncestor (first second : String)
deriving DecidableEq, Repr

/-- The wording of a type error. -/
def TypeError.message : TypeError → String
  | .typeNotFound name => s!"type not found: {name}"
  | .propertyNotFound owner property => s!"property `{property}` not found on type {owner}"
  | .noCommonAncestor first second => s!"no common ancestor for {first} and {second}"

end DataBinding
