import DataBinding.Types.Table
import Mathlib.Logic.Relation

/-!
# Proofs — Types — superclass chains

A table may register a class under any parent, so the way up from a type may end at a class without
a parent, end at a primitive type, leave the table, or run in a circle.  `TypeTable.Inherits` is the
way up without its end, and `TypeTable.Chain` is the list that the table makes of it.

* `ancestors_cases`: a type has a chain, or its way up leaves the table.
* `Chain.mem_iff`: the chain holds what the type inherits from.
* `commonClass_ok_iff`: the first type on the way up from one class that another inherits from, where
  both ways stay in the table.
-/

namespace DataBinding.TypeTable

variable {t t' : TypeTable} {a b c d p : Ty} {S T : Ty → Prop} {passed chain : List Ty}

/-! ### Registered types -/

/-- What kind of type a registered type is. -/
def form? (t : TypeTable) (a : Ty) : Option TypeForm := (t.entries[a.name]?).map (·.form)

def Registered (t : TypeTable) (a : Ty) : Prop := ∃ form, t.form? a = some form

instance (t : TypeTable) (a : Ty) : Decidable (t.Registered a) :=
  decidable_of_iff ((t.form? a).isSome = true) Option.isSome_iff_exists

/-- The parent of a registered class that has one. -/
def parent? (t : TypeTable) (a : Ty) : Option Ty := (t.form? a).bind TypeForm.parent?

theorem registered_of_parent? (h : t.parent? a = some p) : t.Registered a := by
  obtain ⟨form, hform, -⟩ := Option.bind_eq_some_iff.mp h
  exact ⟨form, hform⟩

theorem registered_iff_contains : t.Registered a ↔ t.entries.contains a.name = true := by
  rw [Std.TreeMap.contains_eq_isSome_getElem?, Registered, form?, ← Option.isSome_iff_exists,
    Option.isSome_map]

/-! ### The way up -/

/-- `b` is `a`, the parent of `a`, the parent of that, and so on. -/
def Inherits (t : TypeTable) : Ty → Ty → Prop := Relation.ReflTransGen (t.parent? · = some ·)

theorem Inherits.refl : t.Inherits a a := Relation.ReflTransGen.refl

theorem Inherits.trans (h₁ : t.Inherits a b) (h₂ : t.Inherits b c) : t.Inherits a c :=
  Relation.ReflTransGen.trans h₁ h₂

theorem Inherits.parent (h : t.parent? a = some p) (hp : t.Inherits p b) : t.Inherits a b :=
  Relation.ReflTransGen.head h hp

/-- There is one way up. -/
theorem Inherits.eq_or_parent (h : t.Inherits a b) (hp : t.parent? a = some p) :
    a = b ∨ t.Inherits p b := by
  rcases Relation.ReflTransGen.cases_head_iff.mp h with heq | ⟨p', hp', hrest⟩
  · exact .inl heq
  · obtain rfl : p' = p := Option.some.inj (hp'.symm.trans hp)
    exact .inr hrest

theorem Inherits.eq_of_root (h : t.Inherits a b) (hp : t.parent? a = none) : a = b := by
  rcases Relation.ReflTransGen.cases_head_iff.mp h with heq | ⟨p, hp', -⟩
  · exact heq
  · cases hp'.symm.trans hp

/-- Whoever comes back to a type on the way up never leaves the circle. -/
theorem Inherits.back (hpa : t.Inherits p a) (hp : t.parent? a = some p) (hab : t.Inherits a b) :
    t.Inherits b a := by
  induction hab with
  | refl => exact .refl
  | tail _ hc ih =>
      rcases ih.eq_or_parent hc with rfl | hca
      · obtain rfl := Option.some.inj (hp.symm.trans hc)
        exact hpa
      · exact hca

/-- The way up from the type stays in the table. -/
def Rooted (t : TypeTable) (a : Ty) : Prop := ∀ b, t.Inherits a b → t.Registered b

theorem Rooted.above (h : t.Rooted a) (hab : t.Inherits a b) : t.Rooted b :=
  fun c hbc => h c (hab.trans hbc)

/-! ### Chains -/

/-- `chain` lists the way up from `a` to its end, or to the first type that has been passed. -/
inductive Chain (t : TypeTable) : List Ty → Ty → List Ty → Prop where
  | passed {passed : List Ty} {a : Ty} (h : a ∈ passed) : Chain t passed a []
  | root {passed : List Ty} {a : Ty} (h : a ∉ passed) (hr : t.Registered a)
      (hp : t.parent? a = none) : Chain t passed a [a]
  | up {passed chain : List Ty} {a p : Ty} (h : a ∉ passed) (hp : t.parent? a = some p)
      (rest : Chain t (a :: passed) p chain) : Chain t passed a (a :: chain)

/-- The types of a table that have not been passed. -/
def Unseen (t : TypeTable) (passed : List Ty) (unseen : Std.TreeMap String TypeEntry) : Prop :=
  ∀ a : Ty, unseen[a.name]? = if a ∈ passed then none else t.entries[a.name]?

theorem Unseen.erase {unseen : Std.TreeMap String TypeEntry} (h : t.Unseen passed unseen) (a : Ty) :
    t.Unseen (a :: passed) (unseen.erase a.name) := by
  intro b
  rw [Std.TreeMap.getElem?_erase, h b]
  by_cases hab : a = b
  · simp [hab]
  · have hname : a.name ≠ b.name := fun hname => hab (congrArg Ty.mk hname)
    simp [hname, Ne.symm hab]

/-- The way up ends, or comes to a type that has been passed, or leaves the table. -/
theorem chainFrom_cases {unseen : Std.TreeMap String TypeEntry} (hu : t.Unseen passed unseen)
    (hpassed : ∀ x ∈ passed, t.Registered x) :
    (∃ chain, t.chainFrom unseen a = .ok chain ∧ t.Chain passed a chain) ∨
      ∃ b, t.Inherits a b ∧ ¬ t.Registered b ∧
        t.chainFrom unseen a = .error (.typeNotFound b.name) := by
  fun_induction t.chainFrom unseen a generalizing passed with
  | case1 unseen a hnone hcontains =>
      have hmem : a ∈ passed := by
        refine Decidable.byContradiction fun hmem => ?_
        rw [hu a, if_neg hmem] at hnone
        simp [Std.TreeMap.contains_eq_isSome_getElem?, hnone] at hcontains
      exact .inl ⟨[], rfl, .passed hmem⟩
  | case2 unseen a _ hcontains =>
      exact .inr ⟨a, .refl, fun hr => hcontains (registered_iff_contains.mp hr), rfl⟩
  | case3 unseen a e he hparent =>
      rw [hu a] at he
      split at he
      · cases he
      · rename_i hmem
        refine .inl ⟨[a], rfl, .root hmem ⟨e.form, ?_⟩ ?_⟩ <;> simp [parent?, form?, he, hparent]
  | case4 unseen a e he p hparent ih =>
      rw [hu a] at he
      split at he
      · cases he
      · rename_i hmem
        have hp : t.parent? a = some p := by simp [parent?, form?, he, hparent]
        have hpassed' : ∀ x ∈ a :: passed, t.Registered x := by
          intro x hx
          rcases List.mem_cons.mp hx with rfl | hx
          · exact registered_of_parent? hp
          · exact hpassed x hx
        rcases ih (hu.erase a) hpassed' with ⟨chain, hok, hchain⟩ | ⟨b, hpb, hb, herror⟩
        · rw [hok]
          exact .inl ⟨a :: chain, rfl, .up hmem hp hchain⟩
        · rw [herror]
          exact .inr ⟨b, .parent hp hpb, hb, rfl⟩

/-- A type has a chain, or its way up leaves the table. -/
theorem ancestors_cases (t : TypeTable) (a : Ty) :
    (∃ chain, t.ancestors a = .ok chain ∧ t.Chain [] a chain) ∨
      ∃ b, t.Inherits a b ∧ ¬ t.Registered b ∧ t.ancestors a = .error (.typeNotFound b.name) :=
  chainFrom_cases (fun a => by simp) (by simp)

namespace Chain

theorem inherits (h : t.Chain passed a chain) (hb : b ∈ chain) : t.Inherits a b := by
  induction h with
  | passed => cases hb
  | root =>
      obtain rfl := List.mem_singleton.mp hb
      exact .refl
  | up _ hp _ ih =>
      rcases List.mem_cons.mp hb with rfl | hb
      · exact .refl
      · exact .parent hp (ih hb)

theorem registered (h : t.Chain passed a chain) (hb : b ∈ chain) : t.Registered b := by
  induction h with
  | passed => cases hb
  | root _ hr =>
      obtain rfl := List.mem_singleton.mp hb
      exact hr
  | up _ hp _ ih =>
      rcases List.mem_cons.mp hb with rfl | hb
      · exact registered_of_parent? hp
      · exact ih hb

/-- Where the way up from what has been passed leads through `a`, nothing above `a` is missed. -/
theorem mem_or_passed (h : t.Chain passed a chain)
    (hpassed : ∀ x ∈ passed, ∀ y, t.parent? x = some y → y = a ∨ y ∈ passed)
    (hab : t.Inherits a b) : b ∈ passed ∨ b ∈ chain := by
  induction h with
  | @passed _ a ha =>
      -- what has been passed is closed under parents, for the way up from it leads back into it
      left
      induction hab with
      | refl => exact ha
      | tail _ hstep ih =>
          rcases hpassed _ ih _ hstep with rfl | hmem
          · exact ha
          · exact hmem
  | root _ _ hp =>
      obtain rfl := hab.eq_of_root hp
      exact .inr (List.mem_singleton_self _)
  | @up passed chain a p _ hp _ ih =>
      rcases hab.eq_or_parent hp with rfl | hpb
      · exact .inr List.mem_cons_self
      · have hpassed' : ∀ x ∈ a :: passed, ∀ y, t.parent? x = some y → y = p ∨ y ∈ a :: passed := by
          intro x hx y hy
          rcases List.mem_cons.mp hx with rfl | hx
          · exact .inl (Option.some.inj (hy.symm.trans hp))
          · exact .inr (List.mem_cons.mpr (hpassed x hx y hy))
        rcases ih hpassed' hpb with hmem | hmem
        · rcases List.mem_cons.mp hmem with rfl | hmem
          · exact .inr List.mem_cons_self
          · exact .inl hmem
        · exact .inr (List.mem_cons_of_mem _ hmem)

/-- The chain holds what the type inherits from. -/
theorem mem_iff (h : t.Chain [] a chain) : b ∈ chain ↔ t.Inherits a b := by
  refine ⟨h.inherits, fun hab => ?_⟩
  rcases h.mem_or_passed (by simp) hab with hmem | hmem
  · cases hmem
  · exact hmem

theorem rooted (h : t.Chain [] a chain) : t.Rooted a := fun _ hab => h.registered (h.mem_iff.mpr hab)

end Chain

/-! ### The first type of a kind -/

/-- `c` is the first type on the way up from `a` that is in `S`. -/
inductive First (t : TypeTable) (S : Ty → Prop) : Ty → Ty → Prop where
  | here {a : Ty} (h : S a) : First t S a a
  | up {a p c : Ty} (h : ¬ S a) (hp : t.parent? a = some p) (rest : First t S p c) : First t S a c

namespace First

theorem holds (h : t.First S a c) : S c := by
  induction h with
  | here h => exact h
  | up _ _ _ ih => exact ih

theorem inherits (h : t.First S a c) : t.Inherits a c := by
  induction h with
  | here => exact .refl
  | up _ hp _ ih => exact .parent hp ih

/-- What else is in `S` is further up. -/
theorem inherits_of_mem (h : t.First S a c) (hab : t.Inherits a b) (hb : S b) : t.Inherits c b := by
  induction h with
  | here => exact hab
  | up ha hp _ ih =>
      rcases hab.eq_or_parent hp with rfl | hpb
      · exact absurd hb ha
      · exact ih hpb

theorem exists_of_mem (hab : t.Inherits a b) (hb : S b) : ∃ c, t.First S a c := by
  induction hab using Relation.ReflTransGen.head_induction_on with
  | refl => exact ⟨b, .here hb⟩
  | @head a p hp _ ih =>
      by_cases ha : S a
      · exact ⟨a, .here ha⟩
      · obtain ⟨c, hc⟩ := ih
        exact ⟨c, .up ha hp hc⟩

theorem unique (h : t.First S a c) (h' : t.First S a d) : c = d := by
  induction h with
  | here ha =>
      cases h' with
      | here => rfl
      | up hna => exact absurd ha hna
  | up hna hp _ ih =>
      cases h' with
      | here ha => exact absurd ha hna
      | up _ hp' hrest =>
          obtain rfl := Option.some.inj (hp.symm.trans hp')
          exact ih hrest

/-- The first in `T` from the first in `S` on is the first in both, if what is above `S` is in `S`. -/
theorem and (hS : ∀ x y, S x → t.parent? x = some y → S y) (h₁ : t.First S a b) (h₂ : t.First T b c) :
    t.First (fun x => S x ∧ T x) a c := by
  induction h₁ with
  | here ha =>
      induction h₂ with
      | here hb => exact .here ⟨ha, hb⟩
      | up hna hp _ ih => exact .up (fun h => hna h.2) hp (ih (hS _ _ ha hp))
  | up hna hp _ ih => exact .up (fun h => hna h.1) hp (ih h₂)

end First

theorem Chain.first_of_find? {q : Ty → Bool} (h : t.Chain passed a chain)
    (hfind : chain.find? q = some c) : t.First (q · = true) a c := by
  induction h with
  | passed => cases hfind
  | root =>
      obtain rfl := List.mem_singleton.mp (List.mem_of_find?_eq_some hfind)
      exact .here (List.find?_some hfind)
  | @up _ _ a _ _ hp _ ih =>
      rw [List.find?_cons] at hfind
      cases hq : q a with
      | true =>
          rw [hq] at hfind
          cases hfind
          exact .here hq
      | false =>
          rw [hq] at hfind
          exact .up (by simp [hq]) hp (ih hfind)

/-- The first type of a chain with a property is the first on the way up. -/
theorem Chain.find?_eq_some_iff {q : Ty → Bool} (h : t.Chain [] a chain) :
    chain.find? q = some c ↔ t.First (q · = true) a c := by
  refine ⟨h.first_of_find?, fun hfirst => ?_⟩
  have hsome : (chain.find? q).isSome = true :=
    List.find?_isSome.mpr ⟨c, h.mem_iff.mpr hfirst.inherits, hfirst.holds⟩
  obtain ⟨d, hd⟩ := Option.isSome_iff_exists.mp hsome
  rw [hd, (h.first_of_find? hd).unique hfirst]

/-- The common class of two types is the first on the way up from one that the other inherits from. -/
theorem commonClass_ok_iff :
    t.commonClass a b = .ok c ↔ t.Rooted a ∧ t.Rooted b ∧ t.First (t.Inherits b) a c := by
  rcases t.ancestors_cases b with ⟨ofB, hokB, hB⟩ | ⟨x, hbx, hx, herror⟩
  · rcases t.ancestors_cases a with ⟨ofA, hokA, hA⟩ | ⟨x, hax, hx, herror⟩
    · have hmem : (fun x => ofB.contains x = true) = t.Inherits b := by
        funext x
        rw [List.contains_iff_mem, hB.mem_iff]
      have hfirst : ofA.find? ofB.contains = some c ↔ t.First (t.Inherits b) a c := by
        rw [hA.find?_eq_some_iff, hmem]
      have hvalue : t.commonClass a b =
          (ofA.find? ofB.contains).elim (.error (.noCommonAncestor a.name b.name)) .ok := by
        rw [commonClass, hokA, hokB]
        cases hfind : ofA.find? ofB.contains <;> simp only [bind, Except.bind, hfind] <;> rfl
      rw [hvalue, ← hfirst]
      cases ofA.find? ofB.contains with
      | none => exact ⟨nofun, fun h => nomatch h.2.2⟩
      | some d =>
          refine ⟨fun h => ⟨hA.rooted, hB.rooted, ?_⟩, fun h => ?_⟩
          · cases h
            rfl
          · cases h.2.2
            rfl
    · rw [commonClass, hokB, herror]
      exact ⟨nofun, fun h => absurd (h.1 x hax) hx⟩
  · rw [commonClass, herror]
    exact ⟨nofun, fun h => absurd (h.2.1 x hbx) hx⟩

end DataBinding.TypeTable
