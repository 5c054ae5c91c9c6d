import DataBinding.Proofs.Types.Chain
import Mathlib.Data.List.Chain
import Mathlib.Data.List.Nodup
import Mathlib.Data.List.Perm.Subperm

/-!
# Proofs — Types — where a property is found

A property is looked up along the superclass chain: the type, its parent, and so on.  Registration
checks nothing, so the chain may run into a circle that the type itself is not part of, and it may
come to a name that no type has.  `TypeTable.Lineage` says what the chain is on every table, without
regard to how the table walks it.

* `exists_lineage`, `Lineage.unique`: every type has one chain, on every table.
* `Lineage.mem_iff`: it holds what the type inherits from.
* `Lineage.length_le`: it is not longer than the table, but for a name that is missing at its end.
* `propertyType_along_lineage`: the answers of the table, from the chain.
-/

namespace DataBinding.TypeTable

variable {t : TypeTable} {a b c p : Ty} {passed chain chain' : List Ty} {property : String}

/-! ### The chain of a type -/

/-- The type, its parent, and so on, cut before the first type that comes again. -/
structure Lineage (t : TypeTable) (a : Ty) (chain : List Ty) : Prop where
  first : chain.head? = some a
  parents : chain.IsChain fun b p => t.parent? b = some p
  nodup : chain.Nodup
  /-- The chain goes on as long as there is a parent that it does not hold yet. -/
  cut : ∀ b ∈ chain.getLast?, ∀ p, t.parent? b = some p → p ∈ chain

theorem parent?_of_not_registered (h : ¬ t.Registered a) : t.parent? a = none := by
  cases hp : t.parent? a with
  | none => rfl
  | some p => exact absurd (registered_of_parent? hp) h

/-- Chains of parents from one type differ in their length only. -/
theorem prefix_or_prefix_of_parents (h : chain.IsChain fun b p => t.parent? b = some p)
    (h' : chain'.IsChain fun b p => t.parent? b = some p) (hfirst : chain.head? = chain'.head?) :
    chain <+: chain' ∨ chain' <+: chain := by
  induction chain generalizing chain' with
  | nil => exact .inl List.nil_prefix
  | cons a chain ih =>
      cases chain' with
      | nil => exact .inr List.nil_prefix
      | cons a' chain' =>
          obtain rfl : a = a' := Option.some.inj hfirst
          rw [List.isChain_cons] at h h'
          rw [List.cons_prefix_cons, List.cons_prefix_cons]
          cases chain with
          | nil => exact .inl ⟨rfl, List.nil_prefix⟩
          | cons p chain =>
              cases chain' with
              | nil => exact .inr ⟨rfl, List.nil_prefix⟩
              | cons p' chain' =>
                  have hp : some p = some p' := (h.1 p rfl).symm.trans (h'.1 p' rfl)
                  exact (ih h.2 h'.2 hp).imp (⟨rfl, ·⟩) (⟨rfl, ·⟩)

namespace Lineage

theorem inherits (h : t.Lineage a chain) (hb : b ∈ chain) : t.Inherits a b := by
  obtain ⟨hfirst, hparents, -, -⟩ := h
  induction chain generalizing a with
  | nil => cases hb
  | cons c chain ih =>
      obtain rfl : c = a := Option.some.inj hfirst
      rcases List.mem_cons.mp hb with rfl | hb
      · exact .refl
      · obtain ⟨hhead, hrest⟩ := List.isChain_cons.mp hparents
        cases chain with
        | nil => cases hb
        | cons p chain => exact .parent (hhead p rfl) (ih hb rfl hrest)

/-- The parent of a type of the chain is on the chain. -/
theorem parent_mem (h : t.Lineage a chain) (hb : b ∈ chain) (hp : t.parent? b = some p) :
    p ∈ chain := by
  obtain ⟨before, after, rfl⟩ := List.append_of_mem hb
  cases after with
  | nil => exact h.cut b (by simp) p hp
  | cons c after =>
      have hc := (List.isChain_append_cons_cons.mp h.parents).2.1
      obtain rfl := Option.some.inj (hc.symm.trans hp)
      simp

/-- The chain holds what the type inherits from. -/
theorem mem_iff (h : t.Lineage a chain) : b ∈ chain ↔ t.Inherits a b := by
  refine ⟨h.inherits, fun hab => ?_⟩
  induction hab with
  | refl => exact List.mem_of_mem_head? h.first
  | tail _ hp ih => exact h.parent_mem ih hp

theorem eq_of_prefix (h : t.Lineage a chain) (h' : t.Lineage a chain') (hp : chain <+: chain') :
    chain' = chain := by
  obtain ⟨rest, rfl⟩ := hp
  cases rest with
  | nil => rw [List.append_nil]
  | cons q rest =>
      -- the longer one goes on with a type that the shorter one holds
      obtain ⟨last, hlast⟩ : ∃ last, chain.getLast? = some last := by
        cases chain with
        | nil => cases h.first
        | cons => exact ⟨_, List.getLast?_cons⟩
      have hq := h.cut last hlast q ((List.isChain_append.mp h'.parents).2.2 last hlast q rfl)
      exact absurd List.mem_cons_self (List.disjoint_of_nodup_append h'.nodup hq)

theorem unique (h : t.Lineage a chain) (h' : t.Lineage a chain') : chain' = chain := by
  rcases prefix_or_prefix_of_parents h.parents h'.parents (h.first.trans h'.first.symm) with hp | hp
  · exact h.eq_of_prefix h' hp
  · exact (h'.eq_of_prefix h hp).symm

/-- A name that no type has can only end the chain. -/
theorem missing_unique (h : t.Lineage a chain) (hb : b ∈ chain) (hc : c ∈ chain)
    (hmissing : ¬ t.Registered b) (hmissing' : ¬ t.Registered c) : b = c := by
  have hone : Relator.RightUnique fun x y => t.parent? x = some y :=
    fun _ _ _ hy hz => Option.some.inj (hy.symm.trans hz)
  rcases Relation.ReflTransGen.total_of_right_unique hone (h.inherits hb) (h.inherits hc) with hbc | hcb
  · exact Inherits.eq_of_root hbc (parent?_of_not_registered hmissing)
  · exact (Inherits.eq_of_root hcb (parent?_of_not_registered hmissing')).symm

end Lineage

/-! ### Every type has a chain -/

namespace Chain

theorem eq_of_mem_head? (h : t.Chain passed a chain) (hb : b ∈ chain.head?) : b = a := by
  cases h with
  | passed => cases hb
  | root | up => exact (Option.some.inj hb).symm

theorem isChain (h : t.Chain passed a chain) : chain.IsChain fun b p => t.parent? b = some p := by
  induction h with
  | passed => exact .nil
  | root => exact .singleton _
  | up _ hp hrest ih => exact ih.cons fun b hb => by rwa [hrest.eq_of_mem_head? hb]

theorem not_passed (h : t.Chain passed a chain) (hb : b ∈ chain) : b ∉ passed := by
  induction h with
  | passed => cases hb
  | root ha =>
      obtain rfl := List.mem_singleton.mp hb
      exact ha
  | up ha _ _ ih =>
      rcases List.mem_cons.mp hb with rfl | hb
      · exact ha
      · exact fun hmem => ih hb (List.mem_cons_of_mem _ hmem)

theorem nodup (h : t.Chain passed a chain) : chain.Nodup := by
  induction h with
  | passed => exact List.nodup_nil
  | root => exact List.nodup_singleton _
  | up _ _ hrest ih =>
      exact List.nodup_cons.mpr ⟨fun hmem => hrest.not_passed hmem List.mem_cons_self, ih⟩

/-- The end of a chain has no parent, or one that comes again. -/
theorem cut (h : t.Chain passed a chain) (hb : b ∈ chain.getLast?) (hp : t.parent? b = some p) :
    p ∈ chain ∨ p ∈ passed := by
  induction h with
  | passed => cases hb
  | root _ _ hnone =>
      obtain rfl := Option.some.inj hb
      cases hnone.symm.trans hp
  | up _ hparent hrest ih =>
      cases hrest with
      | passed hmem =>
          obtain rfl := Option.some.inj hb
          obtain rfl := Option.some.inj (hparent.symm.trans hp)
          rcases List.mem_cons.mp hmem with rfl | hmem
          · exact .inl List.mem_cons_self
          · exact .inr hmem
      | root | up =>
          rw [List.getLast?_cons_cons] at hb
          rcases ih hb with hmem | hmem
          · exact .inl (List.mem_cons_of_mem _ hmem)
          · rcases List.mem_cons.mp hmem with rfl | hmem
            · exact .inl List.mem_cons_self
            · exact .inr hmem

/-- What the table makes of the way up, where that stays in the table, is the chain. -/
theorem lineage (h : t.Chain [] a chain) : t.Lineage a chain where
  first := by
    cases h with
    | passed hmem => cases hmem
    | root | up => rfl
  parents := h.isChain
  nodup := h.nodup
  cut b hb p hp := (h.cut hb hp).resolve_right List.not_mem_nil

end Chain

/-- A way up that ends has a chain. -/
theorem exists_lineage_of_root (hab : t.Inherits a b) (hroot : t.parent? b = none) :
    ∃ chain, t.Lineage a chain := by
  induction hab using Relation.ReflTransGen.head_induction_on with
  | refl =>
      refine ⟨[b], rfl, .singleton b, List.nodup_singleton b, fun c hc p hp => ?_⟩
      obtain rfl := Option.some.inj hc
      cases hroot.symm.trans hp
  | @head a p hp hpb ih =>
      obtain ⟨chain, hchain⟩ := ih
      have hnew : a ∉ chain := by
        intro hmem
        have hba := (hchain.inherits hmem).back hp (.parent hp hpb)
        obtain rfl := hba.eq_of_root hroot
        cases hroot.symm.trans hp
      refine ⟨a :: chain, rfl, hchain.parents.cons fun c hc => ?_,
        List.nodup_cons.mpr ⟨hnew, hchain.nodup⟩, fun c hc q hq => ?_⟩
      · rwa [← Option.some.inj (hchain.first.symm.trans hc)]
      · cases chain with
        | nil => cases hchain.first
        | cons =>
            rw [List.getLast?_cons_cons] at hc
            exact List.mem_cons_of_mem _ (hchain.cut c hc q hq)

/-- Every type has a chain, on every table. -/
theorem exists_lineage (t : TypeTable) (a : Ty) : ∃ chain, t.Lineage a chain := by
  rcases t.ancestors_cases a with ⟨chain, -, hchain⟩ | ⟨b, hab, hb, -⟩
  · exact ⟨chain, hchain.lineage⟩
  · exact exists_lineage_of_root hab (parent?_of_not_registered hb)

/-- What is not at the end of the chain has a parent, so it is registered. -/
theorem Lineage.registered_of_mem_dropLast (h : t.Lineage a chain) (hb : b ∈ chain.dropLast) :
    t.Registered b := by
  obtain ⟨before, after, heq⟩ := List.append_of_mem hb
  have hne : chain ≠ [] := by
    rintro rfl
    cases hb
  have hparents := h.parents
  rw [← List.dropLast_append_getLast hne, heq, List.append_assoc] at hparents
  obtain ⟨-, hrest, -⟩ := List.isChain_append.mp hparents
  cases after with
  | nil | cons => exact registered_of_parent? (List.isChain_cons_cons.mp hrest).1

/-- The chain is not longer than the table, but for a name that is missing at its end. -/
theorem Lineage.length_le (h : t.Lineage a chain) : chain.length ≤ t.entries.size + 1 := by
  have hnodup : (chain.dropLast.map Ty.name).Nodup :=
    (h.nodup.sublist (List.dropLast_sublist chain)).map fun x y hname => congrArg Ty.mk hname
  have hsub : chain.dropLast.map Ty.name ⊆ t.entries.keys := by
    intro name hname
    obtain ⟨b, hb, rfl⟩ := List.mem_map.mp hname
    exact Std.TreeMap.mem_keys.mpr (registered_iff_contains.mp (h.registered_of_mem_dropLast hb))
  have hle := (hnodup.subperm hsub).length_le
  rw [List.length_map, List.length_dropLast, Std.TreeMap.length_keys] at hle
  omega

/-! ### Looking up a property -/

/-- The type that the given type itself declares for a property. -/
def declared? (t : TypeTable) (property : String) (a : Ty) : Option Ty :=
  (t.entries[a.name]?).bind fun e => e.properties[property]?

/-- Along registered types, the first declaration is found. -/
theorem findProperty_eq (h : ∀ b ∈ chain, t.Registered b) :
    t.findProperty property chain = .ok (chain.findSome? (t.declared? property)) := by
  induction chain with
  | nil => rfl
  | cons a chain ih =>
      obtain ⟨form, hform⟩ := h a List.mem_cons_self
      obtain ⟨e, he, -⟩ := Option.map_eq_some_iff.mp hform
      have hentry : t.entry a.name = .ok e := by rw [entry, he]
      have hdeclared : t.declared? property a = e.properties[property]? := by
        rw [declared?, he, Option.bind_some]
      rw [findProperty, hentry, List.findSome?_cons, hdeclared]
      cases hfound : e.properties[property]? with
      | some found => simp [hfound, bind, Except.bind, pure, Except.pure]
      | none =>
          simp only [bind, Except.bind, hfound]
          exact ih fun b hb => h b (List.mem_cons_of_mem a hb)

/-- Where all types of the chain are registered, the first declaration is the answer. -/
theorem Lineage.propertyType_of_registered (h : t.Lineage a chain)
    (hall : ∀ b ∈ chain, t.Registered b) :
    t.propertyType a property =
      (chain.findSome? (t.declared? property)).elim
        (.error (.propertyNotFound a.name property)) .ok := by
  have hchain : t.ancestors a = .ok chain := by
    rcases t.ancestors_cases a with ⟨chain', hok, hchain'⟩ | ⟨b, hab, hb, -⟩
    · rw [hok, h.unique hchain'.lineage]
    · exact absurd (hall b (h.mem_iff.mpr hab)) hb
  rw [propertyType, hchain]
  simp only [bind, Except.bind, findProperty_eq hall]
  cases chain.findSome? (t.declared? property) <;> rfl

/-- A name that no type has fails the lookup, even behind a declaration. -/
theorem Lineage.propertyType_of_missing (h : t.Lineage a chain) (hb : b ∈ chain)
    (hmissing : ¬ t.Registered b) : t.propertyType a property = .error (.typeNotFound b.name) := by
  have hchain : t.ancestors a = .error (.typeNotFound b.name) := by
    rcases t.ancestors_cases a with ⟨chain', -, hchain'⟩ | ⟨c, hac, hc, herror⟩
    · exact absurd (hchain'.rooted b (h.inherits hb)) hmissing
    · rw [herror, h.missing_unique hb (h.mem_iff.mpr hac) hmissing hc]
  rw [propertyType, hchain]
  rfl

/-- **Where a property is found.**  On every table, whatever has been registered under whatever
parents, a type has one superclass chain, which holds no name twice and is at most one name longer
than the table.  A lookup fails for a missing type exactly if the chain comes to a name that no type
has; the name in the error is that one.  Otherwise it gives the first declaration along the chain, and
fails for a missing property, naming the type asked and the property, exactly if there is none. -/
theorem propertyType_along_lineage (t : TypeTable) (owner : Ty) (property : String) :
    ∃ chain, (∀ chain', t.Lineage owner chain' ↔ chain' = chain) ∧
      chain.length ≤ t.entries.size + 1 ∧
      (∀ name, t.propertyType owner property = .error (.typeNotFound name) ↔
        ⟨name⟩ ∈ chain ∧ ¬ t.Registered ⟨name⟩) ∧
      (∀ type, t.propertyType owner property = .ok type ↔
        (∀ b ∈ chain, t.Registered b) ∧ chain.findSome? (t.declared? property) = some type) ∧
      ∀ o p, t.propertyType owner property = .error (.propertyNotFound o p) ↔
        o = owner.name ∧ p = property ∧ (∀ b ∈ chain, t.Registered b) ∧
          ∀ b ∈ chain, t.declared? property b = none := by
  obtain ⟨chain, hchain⟩ := t.exists_lineage owner
  refine ⟨chain, fun chain' => ⟨hchain.unique, fun heq => heq ▸ hchain⟩, hchain.length_le, ?_⟩
  by_cases hall : ∀ b ∈ chain, t.Registered b
  · have hnever (name : String) : ¬ ((⟨name⟩ : Ty) ∈ chain ∧ ¬ t.Registered ⟨name⟩) :=
      fun h => h.2 (hall _ h.1)
    rw [hchain.propertyType_of_registered hall, ← List.findSome?_eq_none_iff]
    cases chain.findSome? (t.declared? property) with
    | some found => simpa [hnever] using hall
    | none => simpa [hnever, eq_comm] using hall
  · simp only [Classical.not_forall] at hall
    obtain ⟨b, hb, hmissing⟩ := hall
    have hsome : ¬ ∀ b ∈ chain, t.Registered b := fun hall => hmissing (hall b hb)
    rw [hchain.propertyType_of_missing hb hmissing]
    refine ⟨fun name => ⟨?_, fun h => ?_⟩, by simp [hsome], by simp [hsome]⟩
    · intro heq
      cases heq
      exact ⟨hb, hmissing⟩
    · rw [hchain.missing_unique hb h.1 hmissing h.2]

-- `A` declares the property, but its parent is missing
example : ((standard.registerClass "A" "B").registerProperty "A" "x" "int").bind
    (·.propertyType ⟨"A"⟩ "x") = .error (.typeNotFound "B") := by decide +kernel

-- a circle of `B` and `C` that `A` leads to and is not part of
example : (((standard.registerClass "A" "B").registerClass "B" "C").registerClass "C" "B").propertyType
    ⟨"A"⟩ "x" = .error (.propertyNotFound "A" "x") := by decide +kernel

end DataBinding.TypeTable
