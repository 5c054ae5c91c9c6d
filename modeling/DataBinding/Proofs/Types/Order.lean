import DataBinding.Proofs.Types.Laws

/-!
# Proofs — Types — the order of types

Where classes are registered once, under classes that are there, types have an order: numbers are
below wider numbers, `char` is below `int`, a class is below its parent, and all are below `Object`.
`TypeTable.Le` is generated by just these steps, and what is above a type of some kin is easy to say
(`Le.inherits`, `Le.number`, `Le.kin`).

* `Reached.hierarchy`: what registering classes in this way keeps.
* `commonAncestor_least`: the common ancestor of two types is their least upper bound.
-/

namespace DataBinding

theorem Numeric.rank_injective {m n : Numeric} (h : m.rank = n.rank) : m = n := by
  revert h
  cases m <;> cases n <;> decide

theorem Numeric.exists_narrower {n : Numeric} (h : 0 < n.rank) :
    ∃ m : Numeric, n.rank = m.rank + 1 := by
  cases n with
  | byte => cases h
  | short => exact ⟨byte, rfl⟩
  | int => exact ⟨short, rfl⟩
  | long => exact ⟨int, rfl⟩
  | float => exact ⟨long, rfl⟩
  | double => exact ⟨float, rfl⟩

theorem Numeric.rank_le_wider (m n : Numeric) :
    m.rank ≤ (m.wider n).rank ∧ n.rank ≤ (m.wider n).rank := by
  rw [wider]
  split <;> omega

theorem Numeric.wider_rank_le {k m n : Numeric} (hm : m.rank ≤ k.rank) (hn : n.rank ≤ k.rank) :
    (m.wider n).rank ≤ k.rank := by
  rw [wider]
  split <;> assumption

namespace TypeTable

variable {t t' : TypeTable} {a b c d p : Ty} {m n : Numeric}

/-! ### Class hierarchies -/

/-- The class is new, and its parent is a class that is there. -/
def NewClass (t : TypeTable) (name parent : String) : Prop :=
  ¬ t.Registered ⟨name⟩ ∧ t.IsClass ⟨parent⟩

instance (t : TypeTable) (name parent : String) : Decidable (t.NewClass name parent) :=
  inferInstanceAs (Decidable (_ ∧ _))

/-- All classes are under `Object`, and the primitive types are as they were. -/
structure Hierarchy (t : TypeTable) : Prop where
  numeric : ∀ n : Numeric, t.form? ⟨n.name⟩ = some (.numeric n)
  char : t.form? ⟨"char"⟩ = some .char
  boolean : t.form? boolean = some .boolean
  root : t.parent? object = none
  parent : ∀ {a p}, t.parent? a = some p → t.IsClass p
  inherits_object : ∀ {a}, t.IsClass a → t.Inherits a object

theorem hierarchy_standard : standard.Hierarchy where
  numeric n := by rw [form?_standard]; cases n <;> rfl
  char := by rw [form?_standard]; rfl
  boolean := by rw [form?_standard]; rfl
  root := by rw [parent?, form?_standard]; rfl
  parent h := by
    rw [(parent?_standard h).2]
    exact named_standard.object
  inherits_object := by
    rintro a ⟨parent, h⟩
    rcases form?_standard_cases h with ⟨n, -, hform⟩ | ⟨-, hform⟩ | ⟨-, hform⟩ | ⟨rfl, -⟩ | ⟨rfl, -⟩
    · cases hform
    · cases hform
    · cases hform
    · exact .refl
    · exact .parent (by rw [parent?, form?_standard]; rfl) .refl

/-- A new class changes nothing for the types that are there. -/
theorem form?_newClass {name : String} (hnew : ¬ t.Registered ⟨name⟩) (parent : String)
    (ha : t.Registered a) : (t.registerClass name parent).form? a = t.form? a := by
  rw [form?_registerClass, if_neg]
  rintro rfl
  exact hnew ha

theorem Inherits.newClass {name : String} (hnew : ¬ t.Registered ⟨name⟩) (parent : String)
    (h : t.Inherits a b) : (t.registerClass name parent).Inherits a b := by
  induction h with
  | refl => exact .refl
  | tail _ hp ih =>
      refine ih.trans (.parent ?_ .refl)
      rwa [parent?, form?_newClass hnew parent (registered_of_parent? hp)]

theorem Hierarchy.newClass {name parent : String} (h : t.Hierarchy) (ht : t.Named)
    (hnew : t.NewClass name parent) : (t.registerClass name parent).Hierarchy where
  numeric n := by rw [form?_newClass hnew.1 parent ⟨_, h.numeric n⟩, h.numeric]
  char := by rw [form?_newClass hnew.1 parent ⟨_, h.char⟩, h.char]
  boolean := by rw [form?_newClass hnew.1 parent ⟨_, h.boolean⟩, h.boolean]
  root := by rw [parent?, form?_newClass hnew.1 parent ht.object.registered, ← parent?, h.root]
  parent {a p} hp := by
    rw [parent?_registerClass] at hp
    split at hp
    · cases hp
      exact hnew.2.registerClass name parent
    · exact (h.parent hp).registerClass name parent
  inherits_object {a} ha := by
    by_cases hname : name = a.name
    · have hp : (t.registerClass name parent).parent? a = some ⟨parent⟩ := by
        rw [parent?_registerClass, if_pos hname]
      exact .parent hp ((h.inherits_object hnew.2).newClass hnew.1 parent)
    · rw [IsClass, form?_registerClass, if_neg hname] at ha
      exact (h.inherits_object ha).newClass hnew.1 parent

theorem Hierarchy.congr (h : t.Hierarchy) (hform : ∀ a, t'.form? a = t.form? a) : t'.Hierarchy := by
  have hparent : t'.parent? = t.parent? := by
    funext a
    rw [parent?, hform, parent?]
  obtain ⟨numeric, char, boolean, root, parent, inherits_object⟩ := h
  constructor <;> simp only [IsClass, Inherits, hform, hparent] <;> assumption

theorem Reached.hierarchy (h : t.Reached NewClass) : t.Hierarchy := by
  induction h with
  | standard => exact hierarchy_standard
  | registerClass h hok ih => exact ih.newClass h.named hok
  | registerProperty _ hok ih => exact ih.congr (form?_registerProperty hok)

namespace Hierarchy

theorem isClass_of_inherits (h : t.Hierarchy) (ha : t.IsClass a) (hab : t.Inherits a b) :
    t.IsClass b := by
  induction hab with
  | refl => exact ha
  | tail _ hp _ => exact h.parent hp

theorem rooted (h : t.Hierarchy) (ha : t.IsClass a) : t.Rooted a :=
  fun _ hab => (h.isClass_of_inherits ha hab).registered

/-- The way up ends at `Object`, so it does not run in a circle. -/
theorem acyclic (h : t.Hierarchy) : t.Acyclic := by
  intro a b hab hba
  cases hp : t.parent? a with
  | none => exact hab.eq_of_root hp
  | some p =>
      have ha := h.inherits_object (isClass_of_parent? hp)
      clear hp
      induction ha using Relation.ReflTransGen.head_induction_on generalizing b with
      | refl => exact hab.eq_of_root h.root
      | @head a q hq _ ih =>
          -- were the two different, the next type up would be equal to both
          rcases hab.eq_or_parent hq with heq | hqb
          · exact heq
          · have hqa : q = a := ih a (hqb.trans hba) (.parent hq .refl)
            rw [← hqa]
            exact ih b hqb (hba.trans (.parent hq .refl))

theorem confluent (h : t.Hierarchy) : t.Confluent where
  siblings ha _ hp := absurd (h.parent ha) hp.not_isClass
  int _ _ _ := h.numeric .int
  top _ hp := by cases h.root.symm.trans hp

end Hierarchy

/-! ### The order -/

/-- One step up. -/
inductive Widens (t : TypeTable) : Ty → Ty → Prop where
  | number {m n : Numeric} (h : n.rank = m.rank + 1) : Widens t ⟨m.name⟩ ⟨n.name⟩
  | char : Widens t ⟨"char"⟩ ⟨Numeric.int.name⟩
  | parent {a p : Ty} (h : t.parent? a = some p) : Widens t a p
  | boxed {a : Ty} (h : t.Registered a) : Widens t a object

/-- No other type is above `Object`. -/
theorem Widens.eq_object (h : t.Hierarchy) (ht : t.Named) (hstep : t.Widens a b) (ha : a = object) :
    b = object := by
  have hclass := ht.object
  rw [← ha] at hclass
  cases hstep with
  | boxed => rfl
  | @number m => exact absurd hclass (Primitive.not_isClass ⟨_, h.numeric m, rfl⟩)
  | char => exact absurd hclass (Primitive.not_isClass ⟨_, h.char, rfl⟩)
  | parent hp =>
      rw [ha, h.root] at hp
      cases hp

/-- A step leads to a type of the same kin or to `Object`. -/
theorem Widens.kin (h : t.Hierarchy) {k : TypeKin} (hstep : t.Widens a b) (ha : t.kin? a = some k) :
    b = object ∨ t.kin? b = some k := by
  cases hstep with
  | boxed => exact .inl rfl
  | @number m n =>
      rw [kin?, h.numeric m] at ha
      rw [kin?, h.numeric n]
      exact .inr ha
  | char =>
      rw [kin?, h.char] at ha
      rw [kin?, h.numeric .int]
      exact .inr ha
  | parent hp =>
      rw [kin?_eq_reference_iff.mpr (isClass_of_parent? hp)] at ha
      cases ha
      exact .inr (kin?_eq_reference_iff.mpr (h.parent hp))

/-- A step from a number leads to a wider number or to `Object`. -/
theorem Widens.promoted (h : t.Hierarchy) (hstep : t.Widens a b) (ha : t.promoted? a = some m) :
    b = object ∨ ∃ n : Numeric, b = ⟨n.name⟩ ∧ m.rank ≤ n.rank := by
  cases hstep with
  | boxed => exact .inl rfl
  | @number k n hrank =>
      obtain rfl := Option.some.inj ((promoted?_numeric (h.numeric k)).symm.trans ha)
      exact .inr ⟨n, rfl, by omega⟩
  | char =>
      rw [promoted?, h.char] at ha
      cases ha
      exact .inr ⟨.int, rfl, Nat.le_refl _⟩
  | parent hp =>
      have hkin := kin?_eq_number_iff.mpr ⟨m, ha⟩
      cases hkin.symm.trans (kin?_eq_reference_iff.mpr (isClass_of_parent? hp))

/-- The order of types. -/
def Le (t : TypeTable) : Ty → Ty → Prop := Relation.ReflTransGen t.Widens

namespace Le

theorem of_inherits (h : t.Inherits a b) : t.Le a b := by
  induction h with
  | refl => exact .refl
  | tail _ hp ih => exact ih.tail (.parent hp)

theorem boxed (h : t.Registered a) : t.Le a object := .single (.boxed h)

theorem of_rank (h : m.rank ≤ n.rank) : t.Le ⟨m.name⟩ ⟨n.name⟩ := by
  induction hr : n.rank generalizing n with
  | zero =>
      obtain rfl := Numeric.rank_injective (Nat.le_antisymm h (by omega))
      exact .refl
  | succ r ih =>
      rcases Nat.eq_or_lt_of_le h with heq | hlt
      · rw [Numeric.rank_injective heq]
        exact .refl
      · obtain ⟨k, hk⟩ := Numeric.exists_narrower (n := n) (by omega)
        exact (ih (by omega) (by omega)).tail (.number hk)

theorem of_promoted (ht : t.Named) (ha : t.promoted? a = some m) (h : m.rank ≤ n.rank) :
    t.Le a ⟨n.name⟩ := by
  rcases promoted?_cases ha with hfa | ⟨hfa, rfl⟩
  · rw [ht.name hfa rfl]
    exact of_rank h
  · rw [ht.name hfa rfl]
    exact (of_rank h).head .char

/-- Above a type are types of its kin and `Object`. -/
theorem kin (h : t.Hierarchy) (ht : t.Named) {k : TypeKin} (had : t.Le a d) (ha : t.kin? a = some k) :
    d = object ∨ t.kin? d = some k := by
  induction had with
  | refl => exact .inr ha
  | tail _ hstep ih =>
      rcases ih with hobject | hkin
      · exact .inl (hstep.eq_object h ht hobject)
      · exact hstep.kin h hkin

/-- Above a number are the number itself, wider ones and `Object`. -/
theorem promoted (h : t.Hierarchy) (ht : t.Named) (had : t.Le a d) (ha : t.promoted? a = some m) :
    d = object ∨ ∃ n, t.promoted? d = some n ∧ m.rank ≤ n.rank ∧ (d = a ∨ d = ⟨n.name⟩) := by
  induction had with
  | refl => exact .inr ⟨m, ha, Nat.le_refl _, .inl rfl⟩
  | tail _ hstep ih =>
      rcases ih with hobject | ⟨n, hn, hrank, -⟩
      · exact .inl (hstep.eq_object h ht hobject)
      · rcases hstep.promoted h hn with hobject | ⟨k, rfl, hrank'⟩
        · exact .inl hobject
        · exact .inr ⟨k, promoted?_numeric (h.numeric k), Nat.le_trans hrank hrank', .inr rfl⟩

/-- Above a class is what it inherits from. -/
theorem inherits (h : t.Hierarchy) (had : t.Le a d) (ha : t.IsClass a) : t.Inherits a d := by
  induction had with
  | refl => exact .refl
  | tail _ hstep ih =>
      have hclass := h.isClass_of_inherits ha ih
      cases hstep with
      | @number m => exact absurd hclass (Primitive.not_isClass ⟨_, h.numeric m, rfl⟩)
      | char => exact absurd hclass (Primitive.not_isClass ⟨_, h.char, rfl⟩)
      | parent hp => exact ih.tail hp
      | boxed => exact h.inherits_object ha

end Le

/-! ### Least upper bounds -/

/-- Any two registered types have a common ancestor. -/
theorem Hierarchy.exists_joins (h : t.Hierarchy) (ht : t.Named) (ha : t.Registered a)
    (hb : t.Registered b) : ∃ c, t.Joins a b c := by
  by_cases hab : a = b
  · subst hab
    exact ⟨a, .same ha⟩
  obtain ⟨k, hk⟩ := ha.exists_kin?
  obtain ⟨l, hl⟩ := hb.exists_kin?
  by_cases hkl : k = l
  · subst hkl
    cases k with
    | reference =>
        rw [kin?_eq_reference_iff] at hk hl
        obtain ⟨c, hc⟩ := First.exists_of_mem (h.inherits_object hk) (h.inherits_object hl)
        exact ⟨c, .classes hab hk hl (h.rooted hk) (h.rooted hl) hc⟩
    | number =>
        obtain ⟨m, hm⟩ := kin?_eq_number_iff.mp hk
        obtain ⟨n, hn⟩ := kin?_eq_number_iff.mp hl
        exact ⟨_, .numbers hab hm hn⟩
    | truth => exact absurd (ht.eq_of_truth hk hl) hab
  · exact ⟨_, .apart hk hl hkl⟩

namespace Joins

theorem registered_result (h : t.Hierarchy) (ht : t.Named) (hc : t.Joins a b c) : t.Registered c := by
  cases hc with
  | same ha => exact ha
  | classes _ _ _ hra _ hfirst => exact hra c hfirst.inherits
  | numbers => exact ⟨_, h.numeric _⟩
  | apart => exact ht.object.registered

/-- The common ancestor is above both types. -/
theorem upper (ht : t.Named) (hc : t.Joins a b c) : t.Le a c ∧ t.Le b c := by
  cases hc with
  | same => exact ⟨.refl, .refl⟩
  | classes _ _ _ _ _ hfirst => exact ⟨.of_inherits hfirst.inherits, .of_inherits hfirst.holds⟩
  | numbers _ hm hn =>
      exact ⟨.of_promoted ht hm (Numeric.rank_le_wider _ _).1,
        .of_promoted ht hn (Numeric.rank_le_wider _ _).2⟩
  | apart ha hb => exact ⟨.boxed (registered_of_kin? ha), .boxed (registered_of_kin? hb)⟩

/-- What is above both types is above the common ancestor. -/
theorem least (h : t.Hierarchy) (ht : t.Named) (hc : t.Joins a b c) (had : t.Le a d)
    (hbd : t.Le b d) : t.Le c d := by
  cases hc with
  | same => exact had
  | classes _ ha hb _ _ hfirst =>
      exact .of_inherits (hfirst.inherits_of_mem (had.inherits h ha) (hbd.inherits h hb))
  | numbers hne hm hn =>
      rcases had.promoted h ht hm with rfl | ⟨k, hk, hmk, hd⟩
      · exact .boxed ⟨_, h.numeric _⟩
      rcases hbd.promoted h ht hn with rfl | ⟨k', hk', hnk, hd'⟩
      · exact .boxed ⟨_, h.numeric _⟩
      obtain rfl := Option.some.inj (hk.symm.trans hk')
      -- not both types are the bound, so it is the number by which it takes part
      obtain rfl : d = ⟨k.name⟩ := by
        rcases hd with rfl | hd
        · rcases hd' with rfl | hd'
          · exact absurd rfl hne
          · exact hd'
        · exact hd
      exact .of_rank (Numeric.wider_rank_le hmk hnk)
  | apart ha hb hne =>
      rcases had.kin h ht ha with rfl | hk
      · exact .refl
      · rcases hbd.kin h ht hb with rfl | hl
        · exact .refl
        · exact absurd (Option.some.inj (hk.symm.trans hl)) hne

end Joins

/-- **The common ancestor is the least upper bound.**  Let every class have been registered once, under
a class that was there.  Any two registered types have a common ancestor.  It is registered, it is
above both in the order that widening, inheritance and `Object` generate, and it is below every other
registered type that is.  So on registered types the operation is idempotent, commutative and
associative. -/
theorem commonAncestor_least (ht : t.Reached NewClass) :
    (∀ a b, t.Registered a → t.Registered b → ∃ c, t.commonAncestor a b = .ok c ∧ t.Registered c ∧
      t.Le a c ∧ t.Le b c ∧ ∀ d, t.Registered d → t.Le a d → t.Le b d → t.Le c d) ∧
    (∀ a, t.Registered a → t.commonAncestor a a = .ok a) ∧
    (∀ a b, t.Registered a → t.Registered b → t.commonAncestor a b = t.commonAncestor b a) ∧
    ∀ a b c, t.Registered a → t.Registered b → t.Registered c →
      (t.commonAncestor a b >>= fun x => t.commonAncestor x c) =
        (t.commonAncestor b c >>= fun y => t.commonAncestor a y) := by
  have hn := ht.named
  have h := ht.hierarchy
  have join {a b : Ty} (ha : t.Registered a) (hb : t.Registered b) :
      ∃ c, t.commonAncestor a b = .ok c ∧ t.Joins a b c ∧ t.Registered c := by
    obtain ⟨c, hc⟩ := h.exists_joins hn ha hb
    exact ⟨c, (commonAncestor_ok_iff hn).mpr hc, hc, hc.registered_result h hn⟩
  refine ⟨fun a b ha hb => ?_, fun a => commonAncestor_self, fun a b ha hb => ?_,
    fun a b c ha hb hc => ?_⟩
  · obtain ⟨c, hok, hc, hr⟩ := join ha hb
    obtain ⟨hac, hbc⟩ := hc.upper hn
    exact ⟨c, hok, hr, hac, hbc, fun d _ had hbd => hc.least h hn had hbd⟩
  · obtain ⟨c, hok, hc, -⟩ := join ha hb
    obtain ⟨d, hok', hd, -⟩ := join hb ha
    rw [hok, hok', h.acyclic.comm hn hc hd]
  · obtain ⟨x, hokx, hx, hrx⟩ := join ha hb
    obtain ⟨u, hoku, hu, -⟩ := join hrx hc
    obtain ⟨y, hoky, hy, hry⟩ := join hb hc
    obtain ⟨v, hokv, hv, -⟩ := join ha hry
    calc (t.commonAncestor a b >>= fun x => t.commonAncestor x c)
      _ = .ok u := by rw [hokx]; exact hoku
      _ = .ok v := by rw [h.confluent.assoc hn hx hu hy hv]
      _ = (t.commonAncestor b c >>= fun y => t.commonAncestor a y) := by rw [hoky]; exact hokv.symm

/-- Two kinds of animals meet in `Animal`, `char` and `byte` in `int`, an animal and a number in
`Object`, and three of these in `Object` however they are grouped. -/
theorem commonAncestor_least_animals :
    ∃ t : TypeTable,
      t = ((standard.registerClass "Animal" "Object").registerClass "Dog" "Animal").registerClass
        "Cat" "Animal" ∧
      t.Reached NewClass ∧ t.commonAncestor ⟨"Dog"⟩ ⟨"Cat"⟩ = .ok ⟨"Animal"⟩ ∧
      (∀ d, t.Registered d → t.Le ⟨"Dog"⟩ d → t.Le ⟨"Cat"⟩ d → t.Le ⟨"Animal"⟩ d) ∧
      t.commonAncestor ⟨"char"⟩ ⟨"byte"⟩ = .ok ⟨"int"⟩ ∧
      (∀ d, t.Registered d → t.Le ⟨"char"⟩ d → t.Le ⟨"byte"⟩ d → t.Le ⟨"int"⟩ d) ∧
      (t.commonAncestor ⟨"char"⟩ ⟨"byte"⟩ >>= fun x => t.commonAncestor x ⟨"Dog"⟩) =
        (t.commonAncestor ⟨"byte"⟩ ⟨"Dog"⟩ >>= fun y => t.commonAncestor ⟨"char"⟩ y) := by
  obtain ⟨t, ht⟩ : ∃ t, t = ((standard.registerClass "Animal" "Object").registerClass "Dog"
    "Animal").registerClass "Cat" "Animal" := ⟨_, rfl⟩
  have hreached : t.Reached NewClass := by
    rw [ht]
    exact .registerClass (.registerClass (.registerClass .standard (by decide +kernel))
      (by decide +kernel)) (by decide +kernel)
  obtain ⟨hleast, -, -, hassoc⟩ := commonAncestor_least hreached
  have least {a b c : Ty} (ha : t.Registered a) (hb : t.Registered b)
      (hc : t.commonAncestor a b = .ok c) :
      ∀ d, t.Registered d → t.Le a d → t.Le b d → t.Le c d := by
    obtain ⟨c', hc', -, -, -, hd⟩ := hleast a b ha hb
    cases hc.symm.trans hc'
    exact hd
  have hanimal : t.commonAncestor ⟨"Dog"⟩ ⟨"Cat"⟩ = .ok ⟨"Animal"⟩ := by rw [ht]; decide +kernel
  have hint : t.commonAncestor ⟨"char"⟩ ⟨"byte"⟩ = .ok ⟨"int"⟩ := by rw [ht]; decide +kernel
  have hdog : t.Registered ⟨"Dog"⟩ := by rw [ht]; decide +kernel
  have hcat : t.Registered ⟨"Cat"⟩ := by rw [ht]; decide +kernel
  have hchar : t.Registered ⟨"char"⟩ := by rw [ht]; decide +kernel
  have hbyte : t.Registered ⟨"byte"⟩ := by rw [ht]; decide +kernel
  exact ⟨t, ht, hreached, hanimal, least hdog hcat hanimal, hint, least hchar hbyte hint,
    hassoc _ _ _ hchar hbyte hdog⟩

end TypeTable

end DataBinding
