import DataBinding.Proofs.Types.Chain

/-!
# Proofs — Types — the common ancestor of two types

Tables come from the built-in types by registrations (`TypeTable.Reached`).  Whatever is registered,
a number, `char` and `boolean` keep their names, and `Object` stays a class (`TypeTable.Named`), so a
question for a common ancestor has an answer in one of four ways, which `TypeTable.Joins` lists.

* `Reached.named`: what no registration changes.
* `commonAncestor_ok_iff`: the answers of the table are those that `Joins` lists.
* `Joins.unique`: there is at most one of them.
-/

namespace DataBinding

/-- What registered types are told apart by when they are mixed. -/
inductive TypeKin where
  | reference
  | number
  | truth
deriving DecidableEq, Repr

def TypeForm.kin : TypeForm → TypeKin
  | classType _ => .reference
  | numeric _ | char => .number
  | boolean => .truth

/-- The name by which a primitive type goes. -/
def TypeForm.ownName? : TypeForm → Option String
  | numeric n => some n.name
  | char => some "char"
  | boolean => some "boolean"
  | classType _ => none

namespace Numeric

theorem wider_self (m : Numeric) : m.wider m = m := by cases m <;> rfl

theorem wider_comm (m n : Numeric) : m.wider n = n.wider m := by cases m <;> cases n <;> rfl

theorem wider_assoc (k m n : Numeric) : (k.wider m).wider n = k.wider (m.wider n) := by
  cases k <;> cases m <;> cases n <;> rfl

theorem name_injective {m n : Numeric} (h : m.name = n.name) : m = n := by
  revert h
  cases m <;> cases n <;> decide

end Numeric

namespace TypeTable

variable {t t' : TypeTable} {a b c d p : Ty} {m n : Numeric}

/-! ### Registrations -/

/-- The tables that come from the built-in types by registering properties, and classes as far as
they are allowed. -/
inductive Reached (allowed : TypeTable → String → String → Prop) : TypeTable → Prop where
  | standard : Reached allowed standard
  | registerClass {t : TypeTable} {name parent : String} (h : Reached allowed t)
      (hok : allowed t name parent) : Reached allowed (t.registerClass name parent)
  | registerProperty {t t' : TypeTable} {owner name type : String} (h : Reached allowed t)
      (hok : t.registerProperty owner name type = .ok t') : Reached allowed t'

theorem Reached.mono {allowed allowed' : TypeTable → String → String → Prop}
    (hsub : ∀ t name parent, allowed t name parent → allowed' t name parent)
    (h : t.Reached allowed) : t.Reached allowed' := by
  induction h with
  | standard => exact .standard
  | registerClass _ hok ih => exact .registerClass ih (hsub _ _ _ hok)
  | registerProperty _ hok ih => exact .registerProperty ih hok

theorem form?_register (t : TypeTable) (name : String) (form : TypeForm) (a : Ty) :
    (t.register name form).form? a = if name = a.name then some form else t.form? a := by
  rw [form?, register, Std.TreeMap.getElem?_insert]
  by_cases h : name = a.name <;> simp [h, form?]

/-- A declaration of a property changes no type. -/
theorem form?_registerProperty {owner name type : String}
    (h : t.registerProperty owner name type = .ok t') (a : Ty) : t'.form? a = t.form? a := by
  rw [registerProperty, entry] at h
  cases he : t.entries[owner]? with
  | none =>
      rw [he] at h
      cases h
  | some e =>
      rw [he] at h
      cases h
      rw [form?, Std.TreeMap.getElem?_insert, form?]
      by_cases hname : owner = a.name
      · simp [← hname, he]
      · simp [hname]

/-! ### Kinds of types -/

def IsClass (t : TypeTable) (a : Ty) : Prop := ∃ parent, t.form? a = some (.classType parent)

/-- The type is registered and no class. -/
def Primitive (t : TypeTable) (a : Ty) : Prop := ∃ form, t.form? a = some form ∧ form.isClass = false

/-- The number as which the type takes part in arithmetic. -/
def promoted? (t : TypeTable) (a : Ty) : Option Numeric := (t.form? a).bind TypeForm.promoted

/-- The kin of a registered type. -/
def kin? (t : TypeTable) (a : Ty) : Option TypeKin := (t.form? a).map TypeForm.kin

theorem IsClass.registered (h : t.IsClass a) : t.Registered a := by
  obtain ⟨parent, h⟩ := h
  exact ⟨_, h⟩

theorem isClass_of_parent? (h : t.parent? a = some p) : t.IsClass a := by
  obtain ⟨form, hform, hparent⟩ := Option.bind_eq_some_iff.mp h
  cases form with
  | classType parent => exact ⟨parent, hform⟩
  | _ => cases hparent

theorem Primitive.not_isClass (h : t.Primitive a) : ¬ t.IsClass a := by
  rintro ⟨parent, hclass⟩
  obtain ⟨form, hform, hnot⟩ := h
  obtain rfl := Option.some.inj (hclass.symm.trans hform)
  cases hnot

theorem Registered.isClass_or_primitive (h : t.Registered a) : t.IsClass a ∨ t.Primitive a := by
  obtain ⟨form, h⟩ := h
  cases form with
  | classType parent => exact .inl ⟨parent, h⟩
  | _ => exact .inr ⟨_, h, rfl⟩

theorem Registered.exists_kin? (h : t.Registered a) : ∃ k, t.kin? a = some k := by
  obtain ⟨form, h⟩ := h
  exact ⟨form.kin, by simp [kin?, h]⟩

theorem registered_of_kin? {k : TypeKin} (h : t.kin? a = some k) : t.Registered a := by
  obtain ⟨form, hform, -⟩ := Option.map_eq_some_iff.mp h
  exact ⟨form, hform⟩

theorem kin?_eq_reference_iff : t.kin? a = some .reference ↔ t.IsClass a := by
  rw [kin?, IsClass]
  cases t.form? a with
  | none => simp
  | some form => cases form <;> simp [TypeForm.kin]

instance (t : TypeTable) (a : Ty) : Decidable (t.IsClass a) :=
  decidable_of_iff (t.kin? a = some .reference) kin?_eq_reference_iff

theorem kin?_eq_number_iff : t.kin? a = some .number ↔ ∃ m, t.promoted? a = some m := by
  rw [kin?, promoted?]
  cases t.form? a with
  | none => simp
  | some form => cases form <;> simp [TypeForm.kin, TypeForm.promoted]

/-- What every table has in common, whatever has been registered: the primitive types keep their
names, and `Object` is a class. -/
structure Named (t : TypeTable) : Prop where
  name : ∀ {a form name}, t.form? a = some form → form.ownName? = some name → a = ⟨name⟩
  numeric_or_class : ∀ n : Numeric, t.form? ⟨n.name⟩ = some (.numeric n) ∨ t.IsClass ⟨n.name⟩
  object : t.IsClass object

/-- The built-in types, the last registered first. -/
theorem form?_standard (a : Ty) :
    standard.form? a =
      if "String" = a.name then some (.classType (some object))
      else if "Object" = a.name then some (.classType none)
      else if "boolean" = a.name then some .boolean
      else if "char" = a.name then some .char
      else (Numeric.all.reverse.find? (·.name = a.name)).map .numeric := by
  have hnumeric : ∀ (ns : List Numeric) (t : TypeTable),
      (ns.foldl (fun t n => t.register n.name (.numeric n)) t).form? a =
        ((ns.reverse.find? (·.name = a.name)).map .numeric).or (t.form? a) := by
    intro ns
    induction ns with
    | nil => intro t; rfl
    | cons n ns ih =>
        intro t
        rw [List.foldl_cons, ih, form?_register, List.reverse_cons, List.find?_append, Option.map_or,
          Option.or_assoc]
        by_cases h : n.name = a.name <;> simp [h]
  have hempty : ({} : TypeTable).form? a = none := by simp [form?]
  simp only [standard, form?_register, hnumeric, hempty, Option.or_none]
  rfl

theorem form?_standard_cases {form : TypeForm} (h : standard.form? a = some form) :
    (∃ n : Numeric, a = ⟨n.name⟩ ∧ form = .numeric n) ∨ (a = ⟨"char"⟩ ∧ form = .char) ∨
      (a = boolean ∧ form = .boolean) ∨ (a = object ∧ form = .classType none) ∨
      (a = string ∧ form = .classType (some object)) := by
  rw [form?_standard] at h
  obtain ⟨name⟩ := a
  split at h
  case isTrue hname =>
    cases h
    exact .inr (.inr (.inr (.inr ⟨congrArg Ty.mk hname.symm, rfl⟩)))
  split at h
  case isTrue hname =>
    cases h
    exact .inr (.inr (.inr (.inl ⟨congrArg Ty.mk hname.symm, rfl⟩)))
  split at h
  case isTrue hname =>
    cases h
    exact .inr (.inr (.inl ⟨congrArg Ty.mk hname.symm, rfl⟩))
  split at h
  case isTrue hname =>
    cases h
    exact .inr (.inl ⟨congrArg Ty.mk hname.symm, rfl⟩)
  obtain ⟨n, hfind, rfl⟩ := Option.map_eq_some_iff.mp h
  have hname : n.name = name := by simpa using List.find?_some hfind
  exact .inl ⟨n, congrArg Ty.mk hname.symm, rfl⟩

theorem named_standard : standard.Named where
  name hform hname := by
    rcases form?_standard_cases hform with ⟨n, rfl, rfl⟩ | ⟨rfl, rfl⟩ | ⟨rfl, rfl⟩ | ⟨rfl, rfl⟩ |
      ⟨rfl, rfl⟩ <;> cases hname <;> rfl
  numeric_or_class n := .inl (by rw [form?_standard]; cases n <;> rfl)
  object := ⟨none, by rw [form?_standard]; rfl⟩

theorem form?_registerClass (t : TypeTable) (name parent : String) (a : Ty) :
    (t.registerClass name parent).form? a =
      if name = a.name then some (.classType (some ⟨parent⟩)) else t.form? a :=
  form?_register t name _ a

theorem parent?_registerClass (t : TypeTable) (name parent : String) (a : Ty) :
    (t.registerClass name parent).parent? a = if name = a.name then some ⟨parent⟩ else t.parent? a := by
  rw [parent?, form?_registerClass]
  split <;> rfl

/-- Of the built-in types, only `String` has a parent. -/
theorem parent?_standard (h : standard.parent? a = some p) : a = string ∧ p = object := by
  obtain ⟨form, hform, hp⟩ := Option.bind_eq_some_iff.mp h
  rcases form?_standard_cases hform with ⟨n, rfl, rfl⟩ | ⟨rfl, rfl⟩ | ⟨rfl, rfl⟩ | ⟨rfl, rfl⟩ |
    ⟨rfl, rfl⟩ <;> cases hp
  exact ⟨rfl, rfl⟩

/-- A class stays a class when another is registered, or when it is itself. -/
theorem IsClass.registerClass (h : t.IsClass a) (name parent : String) :
    (t.registerClass name parent).IsClass a := by
  rw [IsClass, form?_registerClass]
  split
  · exact ⟨_, rfl⟩
  · exact h

theorem Named.registerClass (h : t.Named) (name parent : String) :
    (t.registerClass name parent).Named where
  name hform hname := by
    rw [form?_registerClass] at hform
    split at hform
    · cases hform
      cases hname
    · exact h.name hform hname
  numeric_or_class n := by
    rw [form?_registerClass]
    split
    · rename_i hname
      exact .inr ⟨_, by rw [form?_registerClass, if_pos hname]⟩
    · rcases h.numeric_or_class n with hform | hclass
      · exact .inl hform
      · exact .inr (hclass.registerClass name parent)
  object := h.object.registerClass name parent

theorem Named.congr (h : t.Named) (hform : ∀ a, t'.form? a = t.form? a) : t'.Named := by
  obtain ⟨name, numeric_or_class, object⟩ := h
  constructor <;> simp only [IsClass, hform] <;> assumption

theorem Reached.named {allowed : TypeTable → String → String → Prop} (h : t.Reached allowed) :
    t.Named := by
  induction h with
  | standard => exact named_standard
  | registerClass _ _ ih => exact ih.registerClass _ _
  | registerProperty _ hok ih => exact ih.congr (form?_registerProperty hok)

/-- There is one truth type. -/
theorem Named.eq_of_truth (ht : t.Named) (ha : t.kin? a = some .truth) (hb : t.kin? b = some .truth) :
    a = b := by
  have name {a : Ty} (h : t.kin? a = some .truth) : a = boolean := by
    obtain ⟨form, hform, hkin⟩ := Option.map_eq_some_iff.mp h
    cases form with
    | boolean => exact ht.name hform rfl
    | _ => cases hkin
  rw [name ha, name hb]

/-! ### Common ancestors -/

/-- `c` is the common ancestor of `a` and `b`. -/
inductive Joins (t : TypeTable) : Ty → Ty → Ty → Prop where
  | same {a : Ty} (h : t.Registered a) : Joins t a a a
  /-- Classes meet in the first superclass of the one that is one of the other. -/
  | classes {a b c : Ty} (hne : a ≠ b) (ha : t.IsClass a) (hb : t.IsClass b) (hra : t.Rooted a)
      (hrb : t.Rooted b) (h : t.First (t.Inherits b) a c) : Joins t a b c
  /-- Numbers meet in the wider one. -/
  | numbers {a b : Ty} {m n : Numeric} (hne : a ≠ b) (ha : t.promoted? a = some m)
      (hb : t.promoted? b = some n) : Joins t a b ⟨(m.wider n).name⟩
  /-- Types of different kin meet in `Object`. -/
  | apart {a b : Ty} {k l : TypeKin} (ha : t.kin? a = some k) (hb : t.kin? b = some l)
      (hne : k ≠ l) : Joins t a b object

theorem commonAncestor_eq (t : TypeTable) (a b : Ty) :
    t.commonAncestor a b =
      match t.form? a, t.form? b with
      | none, _ => .error (.typeNotFound a.name)
      | some _, none => .error (.typeNotFound b.name)
      | some fa, some fb =>
        if a = b then .ok a
        else if fa.isClass && fb.isClass then t.commonClass a b
        else match fa.promoted, fb.promoted with
          | some m, some n => .ok ⟨(m.wider n).name⟩
          | _, _ => .ok object := by
  rw [commonAncestor, entry, entry, form?, form?]
  cases t.entries[a.name]? with
  | none => rfl
  | some ea =>
      cases t.entries[b.name]? with
      | none => rfl
      | some eb => rfl

theorem commonAncestor_self (h : t.Registered a) : t.commonAncestor a a = .ok a := by
  obtain ⟨form, h⟩ := h
  simp [commonAncestor_eq, h]

theorem commonAncestor_classes (hne : a ≠ b) (ha : t.IsClass a) (hb : t.IsClass b) :
    t.commonAncestor a b = t.commonClass a b := by
  obtain ⟨pa, ha⟩ := ha
  obtain ⟨pb, hb⟩ := hb
  simp [commonAncestor_eq, ha, hb, hne, TypeForm.isClass]

theorem commonAncestor_numbers (hne : a ≠ b) (ha : t.promoted? a = some m)
    (hb : t.promoted? b = some n) : t.commonAncestor a b = .ok ⟨(m.wider n).name⟩ := by
  obtain ⟨fa, hfa, hm⟩ := Option.bind_eq_some_iff.mp ha
  obtain ⟨fb, hfb, hn⟩ := Option.bind_eq_some_iff.mp hb
  have hclass : fa.isClass = false := by
    cases fa with
    | classType => cases hm
    | _ => rfl
  simp [commonAncestor_eq, hfa, hfb, hne, hclass, hm, hn]

theorem commonAncestor_apart {k l : TypeKin} (ha : t.kin? a = some k) (hb : t.kin? b = some l)
    (hne : k ≠ l) : t.commonAncestor a b = .ok object := by
  obtain ⟨fa, hfa, rfl⟩ := Option.map_eq_some_iff.mp ha
  obtain ⟨fb, hfb, rfl⟩ := Option.map_eq_some_iff.mp hb
  have hab : a ≠ b := by
    rintro rfl
    obtain rfl := Option.some.inj (hfa.symm.trans hfb)
    exact hne rfl
  rw [commonAncestor_eq, hfa, hfb]
  cases fa <;> cases fb <;> simp_all [TypeForm.kin, TypeForm.isClass, TypeForm.promoted]

/-- The answers of the table. -/
theorem commonAncestor_ok_iff (ht : t.Named) : t.commonAncestor a b = .ok c ↔ t.Joins a b c := by
  constructor
  · intro h
    obtain ⟨ha, hb⟩ : t.Registered a ∧ t.Registered b := by
      rw [commonAncestor_eq] at h
      cases hfa : t.form? a with
      | none => rw [hfa] at h; cases h
      | some fa =>
          cases hfb : t.form? b with
          | none => rw [hfa, hfb] at h; cases h
          | some fb => exact ⟨⟨fa, hfa⟩, ⟨fb, hfb⟩⟩
    by_cases hne : a = b
    · subst hne
      cases (commonAncestor_self ha).symm.trans h
      exact .same ha
    obtain ⟨k, hk⟩ := ha.exists_kin?
    obtain ⟨l, hl⟩ := hb.exists_kin?
    by_cases hkl : k = l
    · subst hkl
      cases k with
      | reference =>
          rw [kin?_eq_reference_iff] at hk hl
          rw [commonAncestor_classes hne hk hl, commonClass_ok_iff] at h
          exact .classes hne hk hl h.1 h.2.1 h.2.2
      | number =>
          obtain ⟨m, hm⟩ := kin?_eq_number_iff.mp hk
          obtain ⟨n, hn⟩ := kin?_eq_number_iff.mp hl
          cases (commonAncestor_numbers hne hm hn).symm.trans h
          exact .numbers hne hm hn
      | truth => exact absurd (ht.eq_of_truth hk hl) hne
    · cases (commonAncestor_apart hk hl hkl).symm.trans h
      exact .apart hk hl hkl
  · intro h
    cases h with
    | same h => exact commonAncestor_self h
    | classes hne ha hb hra hrb hfirst =>
        rw [commonAncestor_classes hne ha hb]
        exact commonClass_ok_iff.mpr ⟨hra, hrb, hfirst⟩
    | numbers hne ha hb => exact commonAncestor_numbers hne ha hb
    | apart ha hb hne => exact commonAncestor_apart ha hb hne

namespace Joins

theorem unique (ht : t.Named) (h : t.Joins a b c) (h' : t.Joins a b d) : c = d := by
  rw [← commonAncestor_ok_iff ht] at h h'
  exact Except.ok.inj (h.symm.trans h')

theorem registered (h : t.Joins a b c) : t.Registered a ∧ t.Registered b := by
  cases h with
  | same h => exact ⟨h, h⟩
  | classes _ ha hb => exact ⟨ha.registered, hb.registered⟩
  | numbers _ ha hb =>
      exact ⟨registered_of_kin? (kin?_eq_number_iff.mpr ⟨_, ha⟩),
        registered_of_kin? (kin?_eq_number_iff.mpr ⟨_, hb⟩)⟩
  | apart ha hb => exact ⟨registered_of_kin? ha, registered_of_kin? hb⟩

theorem self (ht : t.Named) (h : t.Joins a a c) : c = a := h.unique ht (.same h.registered.1)

theorem of_classes (ht : t.Named) (h : t.Joins a b c) (hne : a ≠ b) (ha : t.IsClass a)
    (hb : t.IsClass b) : t.Rooted a ∧ t.Rooted b ∧ t.First (t.Inherits b) a c := by
  rwa [← commonAncestor_ok_iff ht, commonAncestor_classes hne ha hb, commonClass_ok_iff] at h

/-- Classes meet in the first superclass of the one that is one of the other, also where they are
the same. -/
theorem first (ht : t.Named) (h : t.Joins a b c) (ha : t.IsClass a) (hb : t.IsClass b) :
    t.First (t.Inherits b) a c := by
  by_cases hab : a = b
  · subst hab
    rw [h.self ht]
    exact .here .refl
  · exact (h.of_classes ht hab ha hb).2.2

end Joins

end TypeTable

end DataBinding
