import DataBinding.Proofs.Model.Memo
import DataBinding.Proofs.Types.Lookup

/-!
# Proofs — Models — new classes keep the known types

A class may be registered after types have been asked for and kept.  Its name may be known before, as
the parent of a class or as the type of a property, so that it enters superclass chains that exist.
But a chain that comes to a name without a type has no answer, so no answer was found through the new
name (`TypeTable.Within.ancestors`), and every answer stays as it is.

* `TypeTable.Within`: a table that holds the types of another as they are.
* `Within.resolver`: its resolver gives all answers of the other (`Resolver.Extends`).
* `Resolver.Extends.plainType`: then so does typing.
* `registerClass_conservative`: what a new class leaves as it is.
-/

namespace DataBinding

variable {R R' : Resolver} {t t' : TypeTable} {m : Model} {n : Node} {a b ty : Ty}
  {passed chain : List Ty} {name parent property : String}

/-! ### Larger tables -/

namespace TypeTable

/-- The types of `t` are registered in `t'` as they are in `t`. -/
def Within (t t' : TypeTable) : Prop :=
  ∀ {name : String} {e : TypeEntry}, t.entries[name]? = some e → t'.entries[name]? = some e

/-- A class under a new name leaves all others as they are. -/
theorem within_registerClass (hnew : ¬ t.Registered ⟨name⟩) (parent : String) :
    t.Within (t.registerClass name parent) := by
  intro other e he
  have hne : name ≠ other := by
    rintro rfl
    exact hnew ⟨e.form, by rw [form?, he, Option.map_some]⟩
  rw [registerClass, register, Std.TreeMap.getElem?_insert]
  simp [hne, he]

namespace Within

theorem entry (h : t.Within t') {e : TypeEntry} (he : t.entry name = .ok e) :
    t'.entry name = .ok e := by
  rw [TypeTable.entry] at he ⊢
  cases hfound : t.entries[name]? with
  | none =>
      rw [hfound] at he
      cases he
  | some e' =>
      rw [hfound] at he
      cases he
      rw [h hfound]

theorem form? (h : t.Within t') {form : TypeForm} (hform : t.form? a = some form) :
    t'.form? a = some form := by
  obtain ⟨e, he, rfl⟩ := Option.map_eq_some_iff.mp hform
  rw [TypeTable.form?, h he, Option.map_some]

theorem registered (h : t.Within t') (ha : t.Registered a) : t'.Registered a := by
  obtain ⟨form, hform⟩ := ha
  exact ⟨form, h.form? hform⟩

theorem parent?_eq (h : t.Within t') (ha : t.Registered a) : t'.parent? a = t.parent? a := by
  obtain ⟨form, hform⟩ := ha
  rw [parent?, parent?, hform, h.form? hform]

end Within

/-- What is a chain in a table is one in the larger table. -/
theorem Chain.mono (hchain : t.Chain passed a chain) (h : t.Within t') :
    t'.Chain passed a chain := by
  induction hchain with
  | passed hmem => exact .passed hmem
  | root hmem hr hp => exact .root hmem (h.registered hr) ((h.parent?_eq hr).trans hp)
  | up hmem hp _ ih => exact .up hmem ((h.parent?_eq (registered_of_parent? hp)).trans hp) ih

/-- The table walks the chain of a type, where there is one. -/
theorem ancestors_ok_iff : t.ancestors a = .ok chain ↔ t.Chain [] a chain := by
  rcases t.ancestors_cases a with ⟨chain', hok, hchain'⟩ | ⟨b, hab, hb, herror⟩
  · rw [hok]
    constructor
    · intro heq
      cases heq
      exact hchain'
    · intro hchain
      rw [hchain.lineage.unique hchain'.lineage]
  · rw [herror]
    exact ⟨nofun, fun hchain => absurd (hchain.rooted b hab) hb⟩

namespace Within

theorem ancestors (h : t.Within t') (hok : t.ancestors a = .ok chain) :
    t'.ancestors a = .ok chain :=
  ancestors_ok_iff.mpr ((ancestors_ok_iff.mp hok).mono h)

theorem findType (h : t.Within t') (hok : t.findType name = .ok ty) : t'.findType name = .ok ty := by
  obtain ⟨e, he, hrest⟩ := bind_ok hok
  rw [TypeTable.findType, h.entry he]
  exact hrest

theorem commonClass (h : t.Within t') (hok : t.commonClass a b = .ok ty) :
    t'.commonClass a b = .ok ty := by
  obtain ⟨ofB, hB, hok⟩ := bind_ok hok
  obtain ⟨ofA, hA, hok⟩ := bind_ok hok
  rw [TypeTable.commonClass, h.ancestors hB, h.ancestors hA]
  exact hok

theorem commonAncestor (h : t.Within t') (hok : t.commonAncestor a b = .ok ty) :
    t'.commonAncestor a b = .ok ty := by
  obtain ⟨ea, ha, hok⟩ := bind_ok hok
  obtain ⟨eb, hb, hok⟩ := bind_ok hok
  rw [TypeTable.commonAncestor, h.entry ha, h.entry hb]
  change (if a = b then _ else if ea.form.isClass && eb.form.isClass then _ else _) = _ at hok
  change (if a = b then _ else if ea.form.isClass && eb.form.isClass then _ else _) = _
  by_cases hab : a = b
  · rw [if_pos hab] at hok ⊢
    exact hok
  · rw [if_neg hab] at hok ⊢
    by_cases hclasses : (ea.form.isClass && eb.form.isClass) = true
    · -- two classes are the only types whose chains are walked
      rw [if_pos hclasses] at hok ⊢
      exact h.commonClass hok
    · rw [if_neg hclasses] at hok ⊢
      exact hok

theorem findProperty (h : t.Within t') {found : Option Ty}
    (hok : t.findProperty property chain = .ok found) :
    t'.findProperty property chain = .ok found := by
  induction chain with
  | nil => exact hok
  | cons a chain ih =>
      obtain ⟨e, he, hok⟩ := bind_ok hok
      rw [TypeTable.findProperty, h.entry he]
      cases hdeclared : e.properties[property]? with
      | some found' =>
          rw [hdeclared] at hok
          simp only [bind, Except.bind, hdeclared]
          exact hok
      | none =>
          rw [hdeclared] at hok
          simp only [bind, Except.bind, hdeclared]
          exact ih hok

theorem propertyType (h : t.Within t') (hok : t.propertyType a property = .ok ty) :
    t'.propertyType a property = .ok ty := by
  obtain ⟨chain, hchain, hok⟩ := bind_ok hok
  obtain ⟨found, hfound, hok⟩ := bind_ok hok
  rw [TypeTable.propertyType, h.ancestors hchain]
  simp only [bind, Except.bind, h.findProperty hfound]
  exact hok

end Within

end TypeTable

/-! ### Resolvers with more answers -/

/-- `R'` gives every answer that `R` gives. -/
structure Resolver.Extends (R R' : Resolver) : Prop where
  findType : ∀ {name : String} {ty : Ty}, R.findType name = .ok ty → R'.findType name = .ok ty
  isString : R'.isString = R.isString
  commonAncestor : ∀ {a b ty : Ty}, R.commonAncestor a b = .ok ty → R'.commonAncestor a b = .ok ty
  propertyType : ∀ {a : Ty} {property : String} {ty : Ty},
    R.propertyType a property = .ok ty → R'.propertyType a property = .ok ty
  stringType : ∀ {ty : Ty}, R.stringType = .ok ty → R'.stringType = .ok ty
  booleanType : ∀ {ty : Ty}, R.booleanType = .ok ty → R'.booleanType = .ok ty

theorem TypeTable.Within.resolver (h : t.Within t') : t.resolver.Extends t'.resolver where
  findType := h.findType
  isString := rfl
  commonAncestor := h.commonAncestor
  propertyType := h.propertyType
  stringType := h.findType
  booleanType := h.findType

namespace Resolver.Extends

theorem binaryType (h : R.Extends R') {op : BinaryOp} (hok : R.binaryType op a b = .ok ty) :
    R'.binaryType op a b = .ok ty := by
  rw [Resolver.binaryType] at hok ⊢
  rw [h.isString]
  split at hok
  · rename_i hstring
    rw [if_pos hstring]
    exact h.stringType hok
  · rename_i hstring
    rw [if_neg hstring]
    exact h.commonAncestor hok

/-- The types that are found stay as they are when the resolver has more answers. -/
theorem plainType {ι : Type} (h : R.Extends R') {e : Expr ι} (hok : R.plainType e = .ok ty) :
    R'.plainType e = .ok ty := by
  induction e generalizing ty with
  | literal | identifier | cast => exact h.findType hok
  | property _ _ _ ih =>
      obtain ⟨owner, howner, hok⟩ := bind_ok hok
      rw [Resolver.plainType, ih howner]
      exact h.propertyType hok
  | binary _ _ _ _ ih₁ ih₂ =>
      obtain ⟨a, ha, hok⟩ := bind_ok hok
      obtain ⟨b, hb, hok⟩ := bind_ok hok
      rw [Resolver.plainType, ih₁ ha, ih₂ hb]
      exact h.binaryType hok
  | unary _ op _ ih =>
      cases op with
      | not => exact h.booleanType hok
      | neg | bitNot => exact ih hok
  | group _ _ ih => exact ih hok
  | conditional _ _ _ _ _ ih₂ ih₃ =>
      obtain ⟨a, ha, hok⟩ := bind_ok hok
      obtain ⟨b, hb, hok⟩ := bind_ok hok
      rw [Resolver.plainType, ih₂ ha, ih₃ hb]
      exact h.commonAncestor hok
  | assign _ _ _ _ ih _ => exact ih hok

end Resolver.Extends

namespace Model

/-- What is kept is what the resolver with more answers finds, too. -/
theorem Memoized.extend (h : Memoized R m) (hR : R.Extends R') : Memoized R' m where
  cells := h.cells
  exact n ty hn hcell := hR.plainType (h.exact n ty hn hcell)

end Model

/-! ### A new class -/

/-- **New classes keep the known types.**  Take any table and a name that no type has, be it the
parent of a class or the type of a property.  When a class of that name is registered, under whatever
parent, every type that was found by its name, as a common ancestor or for a property is found as
before, and so is the type of every expression.  A model that has kept types found before the
registration answers every question for a type as it would without them. -/
theorem registerClass_conservative (hnew : ¬ t.Registered ⟨name⟩)
    (hreg : t.registerClass name parent = t') :
    (∀ other ty, t.findType other = .ok ty → t'.findType other = .ok ty) ∧
    (∀ a b ty, t.commonAncestor a b = .ok ty → t'.commonAncestor a b = .ok ty) ∧
    (∀ a property ty, t.propertyType a property = .ok ty → t'.propertyType a property = .ok ty) ∧
    (∀ (ι : Type) (e : Expr ι) ty, t.resolver.plainType e = .ok ty →
      t'.resolver.plainType e = .ok ty) ∧
    ∀ m i n, Model.TypingRun (· = t.resolver) {} m → m.node? i = some n →
      ((t'.resolver.nodeType n).onModel m).value.1 = (t'.resolver.plainType n).mapError .type := by
  have hwithin : t.Within t' := hreg ▸ TypeTable.within_registerClass hnew parent
  refine ⟨fun _ _ => hwithin.findType, fun _ _ _ => hwithin.commonAncestor,
    fun _ _ _ => hwithin.propertyType, fun _ _ _ => hwithin.resolver.plainType,
    fun m i n hrun hnode => ?_⟩
  have hs := (hrun.reachable .empty).sound
  exact (hrun.memoized.extend hwithin.resolver).exact.nodeType_eq hs (hs.holds hnode)

/-- A user's boss is a `Manager`, which is also the parent of `Clerk` and is no type yet.  When it
becomes one, under `User`, a clerk gets to be a user, and what was known of `Clerk` and of the boss
stays. -/
theorem registerClass_conservative_boss :
    ∃ t t' : TypeTable,
      ((TypeTable.standard.registerClass "User" "Object").registerClass "Clerk"
        "Manager").registerProperty "User" "boss" "Manager" = .ok t ∧
      t' = t.registerClass "Manager" "User" ∧ ¬ t.Registered ⟨"Manager"⟩ ∧
      t.commonAncestor ⟨"Clerk"⟩ ⟨"User"⟩ = .error (.typeNotFound "Manager") ∧
      t'.commonAncestor ⟨"Clerk"⟩ ⟨"User"⟩ = .ok ⟨"User"⟩ ∧
      t'.commonAncestor ⟨"Clerk"⟩ ⟨"int"⟩ = .ok TypeTable.object ∧
      t'.resolver.plainType (.property () (.identifier () "u" "User") "boss") =
        .ok ⟨"Manager"⟩ := by
  obtain ⟨start, hstart⟩ : ∃ start, start = ((TypeTable.standard.registerClass "User"
    "Object").registerClass "Clerk" "Manager").registerProperty "User" "boss" "Manager" := ⟨_, rfl⟩
  have hnew : start.map (fun t => decide (t.Registered ⟨"Manager"⟩)) = .ok false := by
    rw [hstart]
    decide +kernel
  have hunknown : start.bind (·.commonAncestor ⟨"Clerk"⟩ ⟨"User"⟩) =
      .error (.typeNotFound "Manager") := by
    rw [hstart]
    decide +kernel
  have hknown : start.bind (fun t => (t.registerClass "Manager" "User").commonAncestor ⟨"Clerk"⟩
      ⟨"User"⟩) = .ok ⟨"User"⟩ := by
    rw [hstart]
    decide +kernel
  have hmixed : start.bind (·.commonAncestor ⟨"Clerk"⟩ ⟨"int"⟩) = .ok TypeTable.object := by
    rw [hstart]
    decide +kernel
  have hboss : start.bind (·.resolver.plainType
      (.property () (.identifier () "u" "User") "boss")) = .ok ⟨"Manager"⟩ := by
    rw [hstart]
    decide +kernel
  cases start with
  | error e => cases hnew
  | ok t =>
      have hfree : ¬ t.Registered ⟨"Manager"⟩ := of_decide_eq_false (Except.ok.inj hnew)
      obtain ⟨-, hcommon, -, hexpr, -⟩ :=
        registerClass_conservative hfree (rfl : t.registerClass "Manager" "User" = _)
      exact ⟨t, _, hstart.symm, rfl, hfree, hunknown, hknown, hcommon _ _ _ hmixed,
        hexpr _ _ _ hboss⟩

end DataBinding
