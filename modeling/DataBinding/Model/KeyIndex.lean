import Std.Data.TreeMap

/-!
# Models — the table of keys

A table that gives each structural key at most one value, once and for all: inserting under a key
that is taken changes nothing and tells what is there.
-/

namespace DataBinding

/-- What is stored under each key. -/
structure KeyIndex (α : Type) where
  entries : Std.TreeMap String α := ∅

namespace KeyIndex

variable {α : Type}

def size (t : KeyIndex α) : Nat := t.entries.size

def isEmpty (t : KeyIndex α) : Bool := t.entries.isEmpty

def get? (t : KeyIndex α) (key : String) : Option α := t.entries[key]?

/-- Stores a value under a key that is free.  The first component is what a key that is taken
holds. -/
def insert (t : KeyIndex α) (key : String) (value : α) : Option α × KeyIndex α :=
  match t.get? key with
  | some held => (some held, t)
  | none => (none, ⟨t.entries.insert key value⟩)

theorem get?_insert (t : KeyIndex α) (key : String) (value : α) (k : String) :
    (t.insert key value).2.get? k = if k = key then some ((t.get? key).getD value) else t.get? k := by
  unfold insert
  split
  case h_1 held h => by_cases hk : k = key <;> simp [hk, h]
  case h_2 h =>
    by_cases hk : k = key
    · subst hk; simp [get?] at h ⊢; simp [h]
    · simp [get?, Std.TreeMap.getElem?_insert, hk, Ne.symm hk]

end KeyIndex

end DataBinding
