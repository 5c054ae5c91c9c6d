import DataBinding.Proofs.Inverse.Agreement
import DataBinding.Proofs.Inverse.RoundTrip

/-!
# Proofs — Inversion — the trail that solving leaves

Where solving succeeds it has gone down from a node, step by step, to a variable or property
(`Expr.spineLeaf`), and assigned to it what the steps require.  `Trail` is that way, with what was
done at each node, and `Descent.requiredAlong` what is required at its end.

* `solveAt_trail`: solving is a trail and an assignment; what is assigned has the key of what is
  required, whatever the names in the models are.
* `solve_bare`: where names are delimited, the assignment is known as an expression.
* `Trail.leaf_eq`: the trail leads to the leaf of the spine.
-/

namespace DataBinding

/-- The variable or property that the way down from a node leads to: at an operator it goes on with
the left operand, if that can change, and else with the right one. -/
def Expr.spineLeaf : Node → Node
  | .binary _ left _ right => if left.label.dynamic then left.spineLeaf else right.spineLeaf
  | .unary _ _ operand => operand.spineLeaf
  | .cast _ _ operand => operand.spineLeaf
  | .group _ inner => inner.spineLeaf
  | node => node

namespace Inverse

variable {R : Resolver} {limit depth : Nat} {context : Context} {s : Model} {node leaf v a : Node}
  {types : TypeCache} {w : Workspace} {d : Descent} {ds : List Descent}

/-! ### Trails -/

/-- The way down from a node to a variable or property, with what is to be done at the nodes before
it. -/
inductive Trail (R : Resolver) (types : TypeCache) : Node → List Descent → Node → Prop where
  | arrive {leaf : Node} (h : Opens R types leaf .arrive) : Trail R types leaf [] leaf
  | down {node part leaf : Node} {d : Descent} {ds : List Descent} (h : Opens R types node d)
      (hpart : d.part? = some part) (htrail : Trail R types part ds leaf) :
      Trail R types node (d :: ds) leaf

theorem Descent.eq_arrive (h : d.part? = none) : d = .arrive := by
  cases d with
  | arrive => rfl
  | keep | unary | cast | rearrange => cases h

/-- What is required at the end of the steps, from what is required at their beginning. -/
def Descent.requiredAlong : List Descent → Expr Unit → Expr Unit
  | [], value => value
  | d :: ds, value => requiredAlong ds (d.required value)

/-- The operand that the way goes on with is the one that can change. -/
theorem split_eq_of_side {left right : Node} {side : Side}
    (h : Side.of? left.label.dynamic right.label.dynamic = some side) :
    side.split left right =
      if left.label.dynamic then (left, right) else (right, left) := by
  cases hl : left.label.dynamic <;> cases hr : right.label.dynamic <;> rw [hl, hr] at h <;> cases h <;>
    rfl

theorem Opens.spineLeaf_eq {part : Node} (h : Opens R types node d)
    (hpart : d.part? = some part) : node.spineLeaf = part.spineLeaf := by
  cases h with
  | identifier | property => cases hpart
  | unary | cast | group =>
      cases hpart
      rfl
  | @binary _ left right _ _ side _ _ _ hside =>
      cases hpart
      rw [Expr.spineLeaf, split_eq_of_side hside]
      split <;> rfl

/-- The trail leads to the leaf of the spine. -/
theorem Trail.leaf_eq (h : Trail R types node ds leaf) : leaf = node.spineLeaf := by
  induction h with
  | arrive h => cases h <;> rfl
  | down h hpart _ ih => rw [h.spineLeaf_eq hpart, ih]

theorem Trail.holds (h : Trail R types node ds leaf) (hs : s.Sound) (hn : s.Holds node) :
    s.Holds leaf := by
  induction h with
  | arrive => exact hn
  | down h hpart _ ih => exact ih (hs.child hn (h.part_mem hpart))

/-- The steps of a trail take their constants from the model of the node. -/
theorem Trail.sourced {P : Layer String → Prop} (h : Trail R types node ds leaf) (hs : s.Sound)
    (hn : s.Holds node) (hunary : ∀ op operand, P (.unary op operand))
    (hbinary : ∀ left op right, P (.binary left op right))
    (hcast : ∀ ty part, Descent.cast ty part ∈ ds → ∀ operand, P (.cast ty operand)) :
    ∀ d ∈ ds, d.Sourced s P := by
  induction h with
  | arrive => exact fun d hd => absurd hd List.not_mem_nil
  | @down node part leaf d ds h hpart _ ih =>
      intro d' hd'
      rcases List.mem_cons.mp hd' with rfl | hd'
      · cases h with
        | identifier | property | group => trivial
        | unary => exact hunary _
        | cast => exact hcast _ _ List.mem_cons_self
        | @binary _ left right _ _ side =>
            exact ⟨hs.child hn (split_mem side left right).2, fun left right => hbinary left _ right⟩
      · exact ih (hs.child hn (h.part_mem hpart))
          (fun ty part hmem => hcast ty part (List.mem_cons_of_mem _ hmem)) d' hd'

/-- The names of the types that are found for nodes of the model do not contain the character that
ends them in a key. -/
def Delimits (R : Resolver) (s : Model) : Prop :=
  ∀ n ∈ s.nodes, ∀ ty ∈ (R.typeOf n s.types).value.1.toOption, '~' ∉ ty.name.toList

instance (R : Resolver) (s : Model) : Decidable (Delimits R s) :=
  inferInstanceAs (Decidable (∀ n ∈ s.nodes, _))

/-- A cast is undone with the name of a type that has been found. -/
theorem Trail.cast_delimited (h : Trail R s.types node ds leaf) (hs : s.Sound) (hn : s.Holds node)
    (hR : Delimits R s) : ∀ ty part, Descent.cast ty part ∈ ds → '~' ∉ ty.toList := by
  induction h with
  | arrive => exact fun ty part hd => absurd hd List.not_mem_nil
  | @down node part leaf d ds h hpart _ ih =>
      have hheld := hs.child hn (h.part_mem hpart)
      intro ty part' hd
      rcases List.mem_cons.mp hd with rfl | hd
      · cases h with
        | cast _ _ _ hty =>
            cases hpart
            exact hR _ (Array.mem_of_getElem? hheld) _ (by rw [hty]; rfl)
      · exact ih hheld ty part' hd

/-! ### What is required -/

theorem Descent.requiredAlong_delimited (hs : s.Sound) (hsd : s.Delimited)
    (hds : ∀ d ∈ ds, d.Sourced s Layer.Delimited) {e : Expr Unit} (he : e.Delimited) :
    (requiredAlong ds e).Delimited := by
  induction ds generalizing e with
  | nil => exact he
  | cons d ds ih =>
      exact ih (fun d' hd' => hds d' (List.mem_cons_of_mem _ hd'))
        (d.required_delimited hs hsd (hds d List.mem_cons_self) he)

theorem Descent.key_requiredAlong {e e' : Expr Unit} (ds : List Descent) (h : e.key = e'.key) :
    (requiredAlong ds e).key = (requiredAlong ds e').key := by
  induction ds generalizing e e' with
  | nil => exact h
  | cons d ds ih => exact ih (d.key_required h)

theorem Descent.bare_required (d : Descent) (e : Expr Unit) :
    (d.required e).bare = d.required e.bare := by
  cases d with
  | arrive | keep | unary | cast => rfl
  | rearrange r constant part =>
      obtain ⟨op, _ | _⟩ := r <;>
        simp [required, Rearrangement.layer, Layer.expr, Expr.bare, Expr.bare_bare]

theorem Descent.bare_requiredAlong (ds : List Descent) (e : Expr Unit) :
    (requiredAlong ds e).bare = requiredAlong ds e.bare := by
  induction ds generalizing e with
  | nil => rfl
  | cons d ds ih => rw [requiredAlong, ih, bare_required, ← requiredAlong]

/-! ### Solving is a trail and an assignment -/

/-- **Solving is a trail and an assignment.**  Where it succeeds, it has gone down a trail, stored
what the steps require, and assigned the last of that. -/
theorem solveAt_trail (hs : s.Sound) (hn : s.Holds node) (hm : w.dest.Sound) (hv : w.dest.Holds v)
    (hsame : SameTypes R s types w.types)
    (hsolve : (solveAt R limit context depth node v.label.id w).value.1 = .ok a) :
    ∃ ds leaf v' w', Trail R types node ds leaf ∧ w'.dest.Sound ∧ w'.dest.Holds v' ∧
      v'.label.key = (Descent.requiredAlong ds v.bare).key ∧
      (∀ P, (∀ d ∈ ds, d.Sourced s P) →
        (∀ r constant part, .rearrange r constant part ∈ ds →
          ∀ e : Node, e.PartOf constant → P (e.layer.map (·.label.key))) →
        w.dest.Extends P w'.dest) ∧
      (solveAt R limit context depth node v.label.id w).value =
        (assign leaf v'.label.id context w').value := by
  induction node using Expr.children_induction generalizing depth v w with
  | step node ih =>
      obtain ⟨d, types', hopens, rfl, ⟨hpart, heq⟩ | ⟨part, value', dest, hpart, hreq, heq⟩⟩ :=
        solveAt_ok_cases hsolve
      · obtain rfl := Descent.eq_arrive hpart
        refine ⟨[], node, v, { w with types := (gate R node w.types).value.2 },
          .arrive (hopens.of_same hs hn hsame), hm, hv, ?_, fun _ _ _ => .refl, heq⟩
        rw [hm.label_key hv, Descent.requiredAlong, Expr.key_bare]
      · have hmem := hopens.part_mem hpart
        obtain ⟨v₁, m₁, hreq₁, hst⟩ := require_stored hs .true hm (hopens.sourced hs hn) hv
        obtain ⟨hvalue, rfl⟩ := Prod.mk.inj (hreq.symm.trans hreq₁)
        cases hvalue
        have hm₁ := hst.grows.sound hm
        rw [heq] at hsolve
        obtain ⟨ds, leaf, v', w', htrail, hm', hv', hkey, hgrows, heq'⟩ :=
          ih part hmem (w := ⟨_, dest⟩) (hs.child hn hmem) hm₁ hst.holds
            (gate_stable hs hn types w.types hsame).same hsolve
        refine ⟨d :: ds, leaf, v', w', .down (hopens.of_same hs hn hsame) hpart htrail, hm', hv', ?_,
          ?_, heq.trans heq'⟩
        · have hrequired : v₁.bare.key = (d.required v.bare).key := by
            rw [Expr.key_bare, ← hm₁.label_key hst.holds, hst.key]
          rw [hkey, Descent.requiredAlong, Descent.key_requiredAlong ds hrequired]
        · intro P hsourced hP
          have hg := require_grows_parts hs hm (hsourced d List.mem_cons_self)
            (fun r constant part heq => hP r constant part (heq ▸ List.mem_cons_self)) v.label.id
          rw [hreq] at hg
          exact hg.trans (hgrows P (fun d' hd' => hsourced d' (List.mem_cons_of_mem _ hd'))
            fun r constant part hmem => hP r constant part (List.mem_cons_of_mem _ hmem))

/-- **What solving stores.**  Where names are delimited, also those of the types that casts on the way
are undone with, the result is the assignment of what is required to the leaf. -/
theorem solve_bare (hs : s.Sound) (hsd : s.Delimited) (hn : s.Holds node) (hm : w.dest.Sound)
    (hmd : w.dest.Delimited) (hv : w.dest.Holds v)
    (hsolve : (solve R limit context node v.label.id w).value.1 = .ok a) :
    ∃ ds, Trail R w.types node ds node.spineLeaf ∧
      ((∀ ty part, Descent.cast ty part ∈ ds → '~' ∉ ty.toList) →
        a.bare = .assign () node.spineLeaf.bare (Descent.requiredAlong ds v.bare) context) := by
  obtain ⟨ds, leaf, v', w', htrail, hm', hv', hkey, hgrows, heq⟩ :=
    solveAt_trail hs hn hm hv .refl hsolve
  obtain rfl := htrail.leaf_eq
  refine ⟨ds, htrail, fun hcast => ?_⟩
  have hsourced : ∀ d ∈ ds, d.Sourced s Layer.Delimited :=
    htrail.sourced hs hn (fun _ _ => trivial) (fun _ _ _ => trivial)
      (fun ty part hmem _ => hcast ty part hmem)
  have hmd' := (hgrows _ hsourced fun _ _ _ hmem =>
    (Model.delimited_iff_all.mp hsd).part hs (hsourced _ hmem).1).delimited hmd
  have hvd : v.Delimited := hm.every hmd hv
  have hvalue : v'.bare = Descent.requiredAlong ds v.bare := by
    have hreq := Descent.requiredAlong_delimited hs hsd hsourced hvd.bare
    rw [hm'.bare_eq_of_key hmd' hv' hreq hkey, Descent.bare_requiredAlong, Expr.bare_bare]
  rw [solve, heq] at hsolve
  rw [(assign_bare hs hsd (htrail.holds hs hn) hm' hmd' hv' hsolve).2, hvalue]

end Inverse

end DataBinding
