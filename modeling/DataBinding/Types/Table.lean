import DataBinding.Types.Resolver
import Std.Data.TreeMap

/-!
# Types — the table of types

A table registers types by name: six numeric types in widening order, `char`, `boolean`, and classes
with single inheritance.  `TypeTable.standard` holds the built-in types; `registerClass` and
`registerProperty` extend it.  Nothing keeps a class from naming a parent that is not registered, not
a class, or one of its own descendants.

* `TypeTable.ancestors` is the superclass chain of a type, cut before the first repeated name.
* `TypeTable.commonAncestor` is the first type of one chain that occurs on the other, for classes;
  the wider of two numeric types; and `Object` for any other two types.
* `TypeTable.propertyType` is the declaration found first along the chain.
-/

namespace DataBinding

/-- The numeric types. -/
inductive Numeric where
  | byte
  | short
  | int
  | long
  | float
  | double
deriving DecidableEq, Repr

namespace Numeric

/-- The numeric types, each before those it widens to. -/
def all : List Numeric := [byte, short, int, long, float, double]

def name : Numeric → String
  | byte => "byte"
  | short => "short"
  | int => "int"
  | long => "long"
  | float => "float"
  | double => "double"

/-- The place in widening order. -/
def rank : Numeric → Nat
  | byte => 0
  | short => 1
  | int => 2
  | long => 3
  | float => 4
  | double => 5

/-- The wider of two numeric types. -/
def wider (a b : Numeric) : Numeric := if a.rank ≤ b.rank then b else a

end Numeric

/-- What kind of type a name stands for. -/
inductive TypeForm where
  | numeric (type : Numeric)
  | char
  | boolean
  | classType (parent : Option Ty)
deriving DecidableEq, Repr

namespace TypeForm

/-- The numeric type as which values take part in arithmetic; `char` is promoted to `int`. -/
def promoted : TypeForm → Option Numeric
  | numeric type => some type
  | char => some .int
  | boolean | classType _ => none

/-- The superclass, for a class that has one. -/
def parent? : TypeForm → Option Ty
  | classType parent => parent
  | numeric _ | char | boolean => none

def isClass : TypeForm → Bool
  | classType _ => true
  | numeric _ | char | boolean => false

end TypeForm

/-- What a table knows of a type. -/
structure TypeEntry where
  form : TypeForm
  properties : Std.TreeMap String Ty := ∅

/-- The registered types, by name. -/
structure TypeTable where
  entries : Std.TreeMap String TypeEntry := ∅

namespace TypeTable

/-! ### Registration -/

/-- The root of the class hierarchy. -/
def object : Ty := ⟨"Object"⟩

def string : Ty := ⟨"String"⟩

def boolean : Ty := ⟨"boolean"⟩

/-- Registers a type without properties, in place of any type of that name. -/
def register (t : TypeTable) (name : String) (form : TypeForm) : TypeTable :=
  ⟨t.entries.insert name { form }⟩

/-- The built-in types. -/
def standard : TypeTable :=
  let numeric : TypeTable := Numeric.all.foldl (fun t n => register t n.name (.numeric n)) {}
  (((numeric.register "char" .char).register boolean.name .boolean).register object.name
    (.classType none)).register string.name (.classType (some object))

/-- Registers a class.  A type of that name is replaced, its properties included. -/
def registerClass (t : TypeTable) (name parent : String) : TypeTable :=
  t.register name (.classType (some ⟨parent⟩))

/-- What the table knows of a type. -/
def entry (t : TypeTable) (name : String) : Except TypeError TypeEntry :=
  match t.entries[name]? with
  | some e => .ok e
  | none => .error (.typeNotFound name)

/-- Declares a property of a registered type, in place of any property of that name. -/
def registerProperty (t : TypeTable) (owner name type : String) : Except TypeError TypeTable := do
  let e ← t.entry owner
  return ⟨t.entries.insert owner { e with properties := e.properties.insert name ⟨type⟩ }⟩

/-! ### Superclass chains -/

/-- The superclass chain from `current` on, where `unseen` holds the registered types that the chain
has not passed yet.  A type that is registered but not unseen has been passed, which ends the
chain. -/
def chainFrom (t : TypeTable) (unseen : Std.TreeMap String TypeEntry) (current : Ty) :
    Except TypeError (List Ty) :=
  match _h : unseen[current.name]? with
  | none => if t.entries.contains current.name then .ok [] else .error (.typeNotFound current.name)
  | some e =>
    match e.form.parent? with
    | none => .ok [current]
    | some parent => (t.chainFrom (unseen.erase current.name) parent).map (current :: ·)
termination_by unseen.size
decreasing_by
  have hc : unseen.contains current.name = true := by
    simp [Std.TreeMap.contains_eq_isSome_getElem?, _h]
  have hp : 0 < unseen.size := by
    rcases Nat.eq_zero_or_pos unseen.size with h0 | h0
    · have he : unseen.isEmpty = true := by simp [Std.TreeMap.isEmpty_eq_size_eq_zero, h0]
      simp [Std.TreeMap.contains_of_isEmpty he] at hc
    · exact h0
  rw [Std.TreeMap.size_erase, if_pos hc]
  omega

/-- The type itself, its parent, and so on. -/
def ancestors (t : TypeTable) (type : Ty) : Except TypeError (List Ty) :=
  t.chainFrom t.entries type

/-! ### Questions -/

def findType (t : TypeTable) (name : String) : Except TypeError Ty := do
  let _ ← t.entry name
  return ⟨name⟩

/-- The first superclass of `a`, itself included, that is also one of `b`. -/
def commonClass (t : TypeTable) (a b : Ty) : Except TypeError Ty := do
  let ofB ← t.ancestors b
  let ofA ← t.ancestors a
  match ofA.find? ofB.contains with
  | some c => return c
  | none => throw (.noCommonAncestor a.name b.name)

/-- The narrowest type that values of both types can be treated as. -/
def commonAncestor (t : TypeTable) (a b : Ty) : Except TypeError Ty := do
  let ea ← t.entry a.name
  let eb ← t.entry b.name
  if a = b then return a
  else if ea.form.isClass && eb.form.isClass then t.commonClass a b
  else match ea.form.promoted, eb.form.promoted with
    | some m, some n => return ⟨(m.wider n).name⟩
    | _, _ => return object

/-- The property's type as declared by the first type of the chain that declares it. -/
def findProperty (t : TypeTable) (property : String) :
    List Ty → Except TypeError (Option Ty)
  | [] => .ok none
  | type :: rest => do
    match (← t.entry type.name).properties[property]? with
    | some found => return some found
    | none => t.findProperty property rest

/-- The type of a property of a type or, failing that, of its nearest superclass that has it. -/
def propertyType (t : TypeTable) (owner : Ty) (property : String) : Except TypeError Ty := do
  match ← t.findProperty property (← t.ancestors owner) with
  | some found => return found
  | none => throw (.propertyNotFound owner.name property)

/-- The resolver that answers from the table. -/
def resolver (t : TypeTable) : Resolver where
  findType := t.findType
  isString type := type == string
  commonAncestor := t.commonAncestor
  propertyType := t.propertyType
  stringType := t.findType string.name
  booleanType := t.findType boolean.name

end TypeTable

end DataBinding
