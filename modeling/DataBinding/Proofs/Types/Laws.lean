import DataBinding.Proofs.Types.Join
import Mathlib.Data.List.Basic

/-!
# Proofs — Types — when the order of types is irrelevant

Whoever combines several types pair by pair relies on the common ancestor not to depend on the order
in which they come.  Registration checks nothing, so tables exist for which it does: two classes that
are parents of each other have each themselves as the common ancestor with the other, and two classes
under `int` meet in `int`, which meets each of them in `Object`.

* `commonAncestor_lawful_iff`: the tables for which the order of two types is irrelevant, and those
  for which the grouping of three is.
* `commonAncestor_unlawful`: tables for which they are not.
-/

namespace DataBinding.TypeTable

variable {t : TypeTable} {a b c d p q u v x y : Ty} {k l m n : Numeric}

/-- No two types are above each other.  A class may be its own parent. -/
def Acyclic (t : TypeTable) : Prop := ∀ a b, t.Inherits a b → t.Inherits b a → a = b

/-- Where types can be combined in any grouping. -/
structure Confluent (t : TypeTable) : Prop where
  /-- No primitive type is the parent of two classes. -/
  siblings : ∀ {a b p}, t.parent? a = some p → t.parent? b = some p → t.Primitive p → a = b
  /-- `int`, in which `char` meets narrower numbers, is a number while there are these. -/
  int : ∀ {n : Numeric}, t.form? ⟨"char"⟩ = some .char → t.form? ⟨n.name⟩ = some (.numeric n) →
    n.rank < Numeric.int.rank → t.form? ⟨"int"⟩ = some (.numeric .int)
  /-- `Object`, in which primitive types meet all others, has no other class above it while there
  are primitive types. -/
  top : ∀ {p q}, t.Primitive q → t.parent? object = some p → t.IsClass p → t.Rooted p → p = object

/-! ### Steps to the common ancestor -/

theorem Primitive.registered (h : t.Primitive a) : t.Registered a := by
  obtain ⟨form, hform, -⟩ := h
  exact ⟨form, hform⟩

theorem Primitive.no_parent (h : t.Primitive a) : t.parent? a = none := by
  cases hp : t.parent? a with
  | none => rfl
  | some p => exact absurd (isClass_of_parent? hp) h.not_isClass

theorem Inherits.exists_last (h : t.Inherits a c) (hne : a ≠ c) :
    ∃ x, t.Inherits a x ∧ t.parent? x = some c := by
  rcases Relation.ReflTransGen.cases_tail h with heq | ⟨x, hax, hx⟩
  · exact absurd heq.symm hne
  · exact ⟨x, hax, hx⟩

/-- The last step to the first type in `S` is from a type that is not in `S`. -/
theorem First.exists_last {S : Ty → Prop} (h : t.First S a c) (ha : ¬ S a) :
    ∃ x, ¬ S x ∧ t.parent? x = some c := by
  induction h with
  | here h => exact absurd h ha
  | @up a p c _ hp hrest ih =>
      by_cases hS : S p
      · cases hrest with
        | here => exact ⟨a, ha, hp⟩
        | up hS' => exact absurd hS hS'
      · exact ih hS

/-- What is above the first type on the way up from `b` that `c` inherits from is above both. -/
theorem First.inherits_iff (h : t.First (t.Inherits c) b y) :
    t.Inherits y x ↔ t.Inherits b x ∧ t.Inherits c x :=
  ⟨fun hyx => ⟨h.inherits.trans hyx, h.holds.trans hyx⟩, fun hx => h.inherits_of_mem hx.1 hx.2⟩

/-! ### The order of two types -/

/-- Two types have a common ancestor in either order or in none. -/
theorem Joins.swap (h : t.Joins a b c) : ∃ d, t.Joins b a d := by
  cases h with
  | same h => exact ⟨a, .same h⟩
  | classes hne ha hb hra hrb hfirst =>
      obtain ⟨d, hd⟩ := First.exists_of_mem hfirst.holds hfirst.inherits
      exact ⟨d, .classes hne.symm hb ha hrb hra hd⟩
  | numbers hne ha hb => exact ⟨_, .numbers hne.symm hb ha⟩
  | apart ha hb hne => exact ⟨_, .apart hb ha hne.symm⟩

/-- In either order, what two types meet in is above the other: two different answers stand in a
circle. -/
theorem Joins.inherits_swap (ht : t.Named) (h : t.Joins a b c) (h' : t.Joins b a d) :
    t.Inherits c d := by
  cases h with
  | same =>
      rw [h'.self ht]
      exact .refl
  | classes _ ha hb _ _ hfirst =>
      have hfirst' := h'.first ht hb ha
      exact hfirst.inherits_of_mem hfirst'.holds hfirst'.inherits
  | numbers hne hm hn =>
      rw [h'.unique ht (.numbers hne.symm hn hm), Numeric.wider_comm]
      exact .refl
  | apart ha hb hne =>
      rw [h'.unique ht (.apart hb ha hne.symm)]
      exact .refl

theorem Acyclic.comm (h : t.Acyclic) (ht : t.Named) (hc : t.Joins a b c) (hd : t.Joins b a d) :
    c = d :=
  h c d (hc.inherits_swap ht hd) (hd.inherits_swap ht hc)

/-- In a circle of types, each is above each. -/
theorem Inherits.around (hab : t.Inherits a b) (hba : t.Inherits b a) (hne : a ≠ b)
    (h : t.Inherits a x) : t.Inherits x a := by
  rcases Relation.ReflTransGen.cases_head_iff.mp hab with heq | ⟨p, hp, hpb⟩
  · exact absurd heq hne
  · exact (Inherits.trans hpb hba).back hp h

/-- Types in a circle are classes, and the way up from them stays in the table. -/
theorem Inherits.circle (hab : t.Inherits a b) (hba : t.Inherits b a) (hne : a ≠ b) :
    t.IsClass a ∧ t.Rooted a := by
  have parent {x : Ty} (hx : t.Inherits x a) : t.IsClass x := by
    cases hp : t.parent? x with
    | some p => exact isClass_of_parent? hp
    | none =>
        obtain rfl := hx.eq_of_root hp
        exact absurd (hab.eq_of_root hp) hne
  exact ⟨parent .refl, fun x hx => (parent (hab.around hba hne hx)).registered⟩

theorem acyclic_of_comm (h : ∀ a b c d, t.Joins a b c → t.Joins b a d → c = d) : t.Acyclic := by
  intro a b hab hba
  refine Classical.byContradiction fun hne => ?_
  obtain ⟨ha, hra⟩ := hab.circle hba hne
  obtain ⟨hb, hrb⟩ := hba.circle hab (Ne.symm hne)
  -- each of the two is the first type on its own way up that is above the other
  exact hne (h a b a b (.classes hne ha hb hra hrb (.here hba))
    (.classes (Ne.symm hne) hb ha hrb hra (.here hab)))

/-! ### The grouping of three types -/

/-- Classes meet in a class. -/
theorem Confluent.isClass (h : t.Confluent) (ht : t.Named) (hc : t.Joins a b c) (ha : t.IsClass a)
    (hb : t.IsClass b) : t.IsClass c := by
  by_cases hab : a = b
  · subst hab
    rwa [hc.self ht]
  obtain ⟨hra, -, hfirst⟩ := hc.of_classes ht hab ha hb
  rcases (hra c hfirst.inherits).isClass_or_primitive with hclass | hprimitive
  · exact hclass
  have hac : ¬ t.Inherits b a := by
    intro hba
    rw [hfirst.unique (.here hba)] at hprimitive
    exact hprimitive.not_isClass ha
  have hbc : b ≠ c := by
    rintro rfl
    exact hprimitive.not_isClass hb
  -- the two ways to a primitive type come from one class, in which they have met before
  obtain ⟨x, hbx, hx⟩ := hfirst.exists_last hac
  obtain ⟨y, hby, hy⟩ := hfirst.holds.exists_last hbc
  obtain rfl := h.siblings hx hy hprimitive
  exact absurd hby hbx

theorem promoted?_cases (h : t.promoted? a = some m) :
    t.form? a = some (.numeric m) ∨ (t.form? a = some .char ∧ m = .int) := by
  obtain ⟨form, hform, hm⟩ := Option.bind_eq_some_iff.mp h
  cases form with
  | numeric n =>
      cases hm
      exact .inl hform
  | char =>
      cases hm
      exact .inr ⟨hform, rfl⟩
  | boolean | classType => cases hm

theorem promoted?_numeric (h : t.form? a = some (.numeric m)) : t.promoted? a = some m := by
  simp [promoted?, h, TypeForm.promoted]

/-- What `char` and a number meet in is a number. -/
theorem Confluent.char (h : t.Confluent) (ht : t.Named) (ha : t.form? a = some .char)
    (hb : t.form? b = some (.numeric m)) :
    t.form? ⟨(Numeric.int.wider m).name⟩ = some (.numeric (Numeric.int.wider m)) := by
  obtain rfl := ht.name ha rfl
  obtain rfl := ht.name hb rfl
  by_cases hrank : Numeric.int.rank ≤ m.rank
  · rwa [Numeric.wider, if_pos hrank]
  · rw [Numeric.wider, if_neg hrank]
    exact h.int ha hb (Nat.lt_of_not_le hrank)

/-- Different numbers meet in a number. -/
theorem Confluent.numeric (h : t.Confluent) (ht : t.Named) (hc : t.Joins a b c)
    (ha : t.promoted? a = some m) (hb : t.promoted? b = some n) :
    t.form? c = some (.numeric (m.wider n)) ∨ (a = b ∧ b = c) := by
  by_cases hab : a = b
  · subst hab
    exact .inr ⟨rfl, (hc.self ht).symm⟩
  obtain rfl := hc.unique ht (.numbers hab ha hb)
  left
  rcases promoted?_cases ha with hfa | ⟨hfa, rfl⟩
  · rcases promoted?_cases hb with hfb | ⟨hfb, rfl⟩
    · obtain rfl := ht.name hfa rfl
      obtain rfl := ht.name hfb rfl
      rw [Numeric.wider]
      split
      · exact hfb
      · exact hfa
    · rw [Numeric.wider_comm]
      exact h.char ht hfb hfa
  · rcases promoted?_cases hb with hfb | ⟨hfb, rfl⟩
    · exact h.char ht hfa hfb
    · exact absurd ((ht.name hfa rfl).trans (ht.name hfb rfl).symm) hab

/-- Types of one kin meet in a type of that kin. -/
theorem Confluent.kin (h : t.Confluent) (ht : t.Named) {k : TypeKin} (hc : t.Joins a b c)
    (ha : t.kin? a = some k) (hb : t.kin? b = some k) : t.kin? c = some k := by
  cases k with
  | reference =>
      rw [kin?_eq_reference_iff] at *
      exact h.isClass ht hc ha hb
  | number =>
      obtain ⟨m, hm⟩ := kin?_eq_number_iff.mp ha
      obtain ⟨n, hn⟩ := kin?_eq_number_iff.mp hb
      rcases h.numeric ht hc hm hn with hform | ⟨rfl, rfl⟩
      · exact kin?_eq_number_iff.mpr ⟨_, promoted?_numeric hform⟩
      · exact ha
  | truth =>
      obtain rfl := ht.eq_of_truth ha hb
      rwa [hc.self ht]

/-- Only `Object` and a primitive type can be above `Object`. -/
theorem Confluent.above_object (h : t.Confluent) (hq : t.Primitive q) (hr : t.Rooted object)
    (hc : t.Inherits object c) : c = object ∨ t.Primitive c := by
  induction hc with
  | refl => exact .inl rfl
  | @tail x y hx hy ih =>
      rcases ih with rfl | hprimitive
      · have hrooted := hr.above (hx.tail hy)
        rcases (hrooted y .refl).isClass_or_primitive with hclass | hprimitive
        · exact .inl (h.top hq hy hclass hrooted)
        · exact .inr hprimitive
      · cases hprimitive.no_parent.symm.trans hy

/-- Where there are primitive types, what meets `Object` meets it in `Object`. -/
theorem Confluent.object_absorbs (h : t.Confluent) (ht : t.Named) (hq : t.Primitive q)
    (hc : t.Joins a b c) (hab : a = object ∨ b = object) : c = object := by
  obtain ⟨k, hk⟩ := hc.registered.1.exists_kin?
  obtain ⟨l, hl⟩ := hc.registered.2.exists_kin?
  by_cases hkl : k = l
  · obtain rfl : k = .reference := by
      have hobject := kin?_eq_reference_iff.mpr ht.object
      rcases hab with rfl | rfl
      · exact Option.some.inj (hk.symm.trans hobject)
      · exact hkl.trans (Option.some.inj (hl.symm.trans hobject))
    subst hkl
    rw [kin?_eq_reference_iff] at hk hl
    have hclass := h.isClass ht hc hk hl
    by_cases heq : a = b
    · subst heq
      rw [hc.self ht]
      exact hab.elim id id
    -- what the two meet in is a class above both
    · obtain ⟨hra, hrb, hfirst⟩ := hc.of_classes ht heq hk hl
      have habove : c = object ∨ t.Primitive c := by
        rcases hab with rfl | rfl
        · exact h.above_object hq hra hfirst.inherits
        · exact h.above_object hq hrb hfirst.holds
      rcases habove with hobject | hprimitive
      · exact hobject
      · exact absurd hclass hprimitive.not_isClass
  · exact hc.unique ht (.apart hk hl hkl)

/-- Classes are grouped in any way: either way leads to the first type above all three. -/
theorem Joins.assoc_classes (ht : t.Named) (ha : t.IsClass a) (hb : t.IsClass b) (hc : t.IsClass c)
    (hx : t.IsClass x) (hy : t.IsClass y) (hab : t.Joins a b x) (hxc : t.Joins x c u)
    (hbc : t.Joins b c y) (hay : t.Joins a y v) : u = v := by
  have hu : t.First (fun z => t.Inherits b z ∧ t.Inherits c z) a u :=
    (hab.first ht ha hb).and (fun _ _ hz hp => hz.tail hp) (hxc.first ht hx hc)
  have hv := hay.first ht ha hy
  have hset : t.Inherits y = fun z => t.Inherits b z ∧ t.Inherits c z := by
    funext z
    exact propext (hbc.first ht hb hc).inherits_iff
  rw [hset] at hv
  exact hu.unique hv

/-- Three numbers meet in the widest, unless they are one. -/
theorem Confluent.numeric_left (h : t.Confluent) (ht : t.Named) (ha : t.promoted? a = some k)
    (hb : t.promoted? b = some m) (hc : t.promoted? c = some n) (hab : t.Joins a b x)
    (hxc : t.Joins x c u) :
    t.form? u = some (.numeric ((k.wider m).wider n)) ∨ (a = b ∧ b = c ∧ c = u) := by
  rcases h.numeric ht hab ha hb with hx | ⟨rfl, rfl⟩
  · rcases h.numeric ht hxc (promoted?_numeric hx) hc with hu | ⟨rfl, rfl⟩
    · exact .inl hu
    · obtain rfl := Option.some.inj ((promoted?_numeric hx).symm.trans hc)
      rw [Numeric.wider_self]
      exact .inl hx
  · obtain rfl := Option.some.inj (ha.symm.trans hb)
    rw [Numeric.wider_self]
    rcases h.numeric ht hxc ha hc with hu | ⟨hac, hcu⟩
    · exact .inl hu
    · exact .inr ⟨rfl, hac, hcu⟩

/-- The order of two numbers is irrelevant. -/
theorem Joins.comm_numbers (ht : t.Named) (h : t.Joins a b c) (ha : t.promoted? a = some m)
    (hb : t.promoted? b = some n) : t.Joins b a c := by
  by_cases hab : a = b
  · subst hab
    exact h
  · rw [h.unique ht (.numbers hab ha hb), Numeric.wider_comm]
    exact .numbers (Ne.symm hab) hb ha

theorem Confluent.assoc_numbers (h : t.Confluent) (ht : t.Named) (ha : t.promoted? a = some k)
    (hb : t.promoted? b = some m) (hc : t.promoted? c = some n) (hab : t.Joins a b x)
    (hxc : t.Joins x c u) (hbc : t.Joins b c y) (hay : t.Joins a y v) : u = v := by
  obtain ⟨j, hj⟩ : ∃ j, t.promoted? y = some j := by
    rw [← kin?_eq_number_iff]
    exact h.kin ht hbc (kin?_eq_number_iff.mpr ⟨m, hb⟩) (kin?_eq_number_iff.mpr ⟨n, hc⟩)
  -- the other grouping is this one of the three numbers in the opposite order
  have hcb := hbc.comm_numbers ht hb hc
  have hya := hay.comm_numbers ht ha hj
  rcases h.numeric_left ht ha hb hc hab hxc with hu | ⟨rfl, rfl, rfl⟩
  · rcases h.numeric_left ht hc hb ha hcb hya with hv | ⟨rfl, rfl, rfl⟩
    · rw [ht.name hu rfl, ht.name hv rfl, Numeric.wider_comm n m, Numeric.wider_comm _ k,
        Numeric.wider_assoc]
    · obtain rfl := hab.self ht
      exact hxc.self ht
  · obtain rfl := hbc.self ht
    exact (hay.self ht).symm

/-- Types are grouped in any way. -/
theorem Confluent.assoc (h : t.Confluent) (ht : t.Named) (hab : t.Joins a b x) (hxc : t.Joins x c u)
    (hbc : t.Joins b c y) (hay : t.Joins a y v) : u = v := by
  obtain ⟨k, hk⟩ := hab.registered.1.exists_kin?
  obtain ⟨l, hl⟩ := hab.registered.2.exists_kin?
  obtain ⟨j, hj⟩ := hbc.registered.2.exists_kin?
  by_cases hone : k = l ∧ l = j
  · obtain ⟨rfl, rfl⟩ := hone
    cases k with
    | reference =>
        rw [kin?_eq_reference_iff] at hk hl hj
        exact Joins.assoc_classes ht hk hl hj (h.isClass ht hab hk hl) (h.isClass ht hbc hl hj)
          hab hxc hbc hay
    | number =>
        obtain ⟨_, hk⟩ := kin?_eq_number_iff.mp hk
        obtain ⟨_, hl⟩ := kin?_eq_number_iff.mp hl
        obtain ⟨_, hj⟩ := kin?_eq_number_iff.mp hj
        exact h.assoc_numbers ht hk hl hj hab hxc hbc hay
    | truth =>
        obtain rfl := ht.eq_of_truth hk hl
        obtain rfl := ht.eq_of_truth hk hj
        obtain rfl := hab.self ht
        obtain rfl := hbc.self ht
        exact hxc.unique ht hay
  -- of different kin, one of them primitive: all end in `Object`
  · obtain ⟨q, hq⟩ : ∃ q, t.Primitive q := by
      refine Classical.byContradiction fun hnone => hone ?_
      have reference {z : Ty} {i : TypeKin} (hz : t.kin? z = some i) : i = .reference := by
        rcases (registered_of_kin? hz).isClass_or_primitive with hclass | hprimitive
        · exact Option.some.inj (hz.symm.trans (kin?_eq_reference_iff.mpr hclass))
        · exact absurd ⟨z, hprimitive⟩ hnone
      exact ⟨(reference hk).trans (reference hl).symm, (reference hl).trans (reference hj).symm⟩
    have hu : u = object := by
      by_cases hkl : k = l
      · subst hkl
        exact hxc.unique ht (.apart (h.kin ht hab hk hl) hj fun hkj => hone ⟨rfl, hkj⟩)
      · exact h.object_absorbs ht hq hxc (.inl (hab.unique ht (.apart hk hl hkl)))
    have hv : v = object := by
      by_cases hlj : l = j
      · subst hlj
        exact hay.unique ht (.apart hk (h.kin ht hbc hl hj) fun hkl => hone ⟨hkl, rfl⟩)
      · exact h.object_absorbs ht hq hay (.inr (hbc.unique ht (.apart hl hj hlj)))
    rw [hu, hv]

/-! ### Tables for which the grouping matters -/

theorem Primitive.kin? (h : t.Primitive q) : ∃ k, t.kin? q = some k ∧ k ≠ .reference := by
  obtain ⟨form, hform, hclass⟩ := h
  refine ⟨form.kin, by simp [TypeTable.kin?, hform], ?_⟩
  cases form with
  | classType => cases hclass
  | _ =>
      intro h
      cases h

/-- A class and a primitive type meet in `Object`, in either order. -/
theorem Joins.of_primitive (ha : t.IsClass a) (hq : t.Primitive q) :
    t.Joins a q object ∧ t.Joins q a object := by
  obtain ⟨k, hk, hne⟩ := hq.kin?
  rw [← kin?_eq_reference_iff] at ha
  exact ⟨.apart ha hk hne.symm, .apart hk ha hne⟩

theorem confluent_of_assoc (ht : t.Named)
    (h : ∀ a b c x y u v, t.Joins a b x → t.Joins x c u → t.Joins b c y → t.Joins a y v → u = v) :
    t.Confluent where
  siblings {a b p} ha hb hp := by
    -- `a`, `a` and `b`: either `a` meets `b` in `p`, or `a` meets `p` in `Object`
    refine Classical.byContradiction fun hne => ?_
    have hclass := isClass_of_parent? ha
    have hrooted {z : Ty} (hz : t.parent? z = some p) : t.Rooted z := by
      intro w hw
      rcases hw.eq_or_parent hz with rfl | hpw
      · exact registered_of_parent? hz
      · obtain rfl := hpw.eq_of_root hp.no_parent
        exact hp.registered
    have hba : ¬ t.Inherits b a := by
      intro hba
      rcases hba.eq_or_parent hb with heq | hpa
      · exact hne heq.symm
      · obtain rfl := hpa.eq_of_root hp.no_parent
        exact hp.not_isClass hclass
    have hab : t.Joins a b p :=
      .classes hne hclass (isClass_of_parent? hb) (hrooted ha) (hrooted hb)
        (.up hba ha (.here (.parent hb .refl)))
    have hobject := h a a b a p p object (.same hclass.registered) hab hab
      (Joins.of_primitive hclass hp).1
    rw [hobject] at hp
    exact hp.not_isClass ht.object
  int {n} hchar hnum hrank := by
    -- the narrow number twice and `char`: either the two meet in `int`, or the first meets `int` in
    -- `Object`
    rcases ht.numeric_or_class .int with hint | hint
    · exact hint
    have hne : (⟨n.name⟩ : Ty) ≠ ⟨"char"⟩ := by
      intro heq
      rw [heq, hchar] at hnum
      cases hnum
    have hwider : n.wider .int = .int := by
      rw [Numeric.wider, if_pos (Nat.le_of_lt hrank)]
    have hjoin : t.Joins ⟨n.name⟩ ⟨"char"⟩ ⟨"int"⟩ := by
      have hpromoted : t.promoted? ⟨"char"⟩ = some .int := by
        simp [promoted?, hchar, TypeForm.promoted]
      have hjoin := Joins.numbers hne (promoted?_numeric hnum) hpromoted
      rwa [hwider] at hjoin
    have hobject := h _ _ _ _ _ _ _ (.same ⟨_, hnum⟩) hjoin hjoin
      (Joins.of_primitive hint ⟨_, hnum, rfl⟩).2
    exact absurd hobject (by decide)
  top {p q} hq hp hclass hr := by
    -- `p`, a primitive type and `Object`: either all ends in `Object`, or `p` meets it in `p`
    refine Classical.byContradiction fun hne => ?_
    have habove : t.Inherits object p := .parent hp .refl
    have hrooted : t.Rooted object := by
      intro w hw
      rcases hw.eq_or_parent hp with rfl | hpw
      · exact ht.object.registered
      · exact hr w hpw
    have hjoin : t.Joins p object p :=
      .classes hne hclass ht.object hr hrooted (.here habove)
    exact hne (h p q object object object object p (Joins.of_primitive hclass hq).1
      (.same ht.object.registered) (Joins.of_primitive ht.object hq).2 hjoin).symm

/-! ### The laws -/

/-- **When the order of types is irrelevant.**  Take any table, whatever classes and properties have
been registered.  Two types have a common ancestor in either order or in none.  It is the same in
either order, for all types, exactly if no two types are above each other.  Three types, where either
grouping has an answer, have the same in both, for all types, exactly if no primitive type is the
parent of two classes, `int` is a number while `char` and a narrower number are there, and no other
class is above `Object` while there are primitive types. -/
theorem commonAncestor_lawful_iff (ht : t.Reached fun _ _ _ => True) :
    (∀ a b c, t.commonAncestor a b = .ok c → ∃ d, t.commonAncestor b a = .ok d) ∧
    ((∀ a b c d, t.commonAncestor a b = .ok c → t.commonAncestor b a = .ok d → c = d) ↔
      t.Acyclic) ∧
    ((∀ a b c x y u v, t.commonAncestor a b = .ok x → t.commonAncestor x c = .ok u →
        t.commonAncestor b c = .ok y → t.commonAncestor a y = .ok v → u = v) ↔
      t.Confluent) := by
  have hn := ht.named
  simp only [commonAncestor_ok_iff hn]
  refine ⟨fun a b c h => h.swap, ⟨acyclic_of_comm, fun h a b c d => h.comm hn⟩,
    ⟨confluent_of_assoc hn, fun h a b c x y u v => h.assoc hn⟩⟩

/-- Where two classes are parents of each other, all types can be grouped in any way, and yet the
order of two types matters. -/
theorem commonAncestor_lawful_iff_circle :
    ∃ t : TypeTable, t = (standard.registerClass "A" "B").registerClass "B" "A" ∧
      (∀ a b c x y u v, t.commonAncestor a b = .ok x → t.commonAncestor x c = .ok u →
        t.commonAncestor b c = .ok y → t.commonAncestor a y = .ok v → u = v) ∧
      ¬ ∀ a b c d, t.commonAncestor a b = .ok c → t.commonAncestor b a = .ok d → c = d := by
  obtain ⟨t, ht⟩ : ∃ t, t = (standard.registerClass "A" "B").registerClass "B" "A" := ⟨_, rfl⟩
  have hreached : t.Reached fun _ _ _ => True :=
    ht ▸ .registerClass (.registerClass .standard trivial) trivial
  obtain ⟨-, hcomm, hassoc⟩ := commonAncestor_lawful_iff hreached
  refine ⟨t, ht, hassoc.mpr ⟨fun {a b p} ha _ hp => ?_, fun _ _ _ => ?_, fun _ hp => ?_⟩,
    fun h => ?_⟩
  -- no parent is primitive
  · rw [ht, parent?_registerClass, parent?_registerClass] at ha
    refine absurd ?_ hp.not_isClass
    rw [ht]
    split at ha
    · cases ha
      exact ⟨some ⟨"B"⟩, by decide +kernel⟩
    split at ha
    · cases ha
      exact ⟨some ⟨"A"⟩, by decide +kernel⟩
    · rw [(parent?_standard ha).2]
      exact ⟨none, by decide +kernel⟩
  · rw [ht]
    decide +kernel
  · have hnone : t.parent? object = none := by
      rw [ht]
      decide +kernel
    cases hnone.symm.trans hp
  · have hA : t.parent? ⟨"A"⟩ = some ⟨"B"⟩ := by
      rw [ht]
      decide +kernel
    have hB : t.parent? ⟨"B"⟩ = some ⟨"A"⟩ := by
      rw [ht]
      decide +kernel
    have heq := hcomm.mp h ⟨"A"⟩ ⟨"B"⟩ (.parent hA .refl) (.parent hB .refl)
    exact absurd heq (by decide)

/-- Two classes that are parents of each other have each themselves as the common ancestor with the
other; two classes under `int` meet in `int`, but the first of them meets `int` in `Object`. -/
theorem commonAncestor_unlawful :
    (∃ t : TypeTable, t = (standard.registerClass "A" "B").registerClass "B" "A" ∧
      t.Reached (fun _ _ _ => True) ∧ t.commonAncestor ⟨"A"⟩ ⟨"B"⟩ = .ok ⟨"A"⟩ ∧
      t.commonAncestor ⟨"B"⟩ ⟨"A"⟩ = .ok ⟨"B"⟩) ∧
    ∃ t : TypeTable, t = (standard.registerClass "C" "int").registerClass "D" "int" ∧
      t.Reached (fun _ _ _ => True) ∧ t.commonAncestor ⟨"C"⟩ ⟨"C"⟩ = .ok ⟨"C"⟩ ∧
      t.commonAncestor ⟨"C"⟩ ⟨"D"⟩ = .ok ⟨"int"⟩ ∧ t.commonAncestor ⟨"C"⟩ ⟨"int"⟩ = .ok object := by
  refine ⟨⟨_, rfl, .registerClass (.registerClass .standard trivial) trivial, ?_, ?_⟩,
    _, rfl, .registerClass (.registerClass .standard trivial) trivial, ?_, ?_, ?_⟩ <;>
  decide +kernel

end DataBinding.TypeTable
