import DataBinding.Proofs.Model.Sound

/-!
# Proofs — Models — what can change

A node carries a flag that says whether its value can change.  The flag is computed from the flags
of the children when the node is stored; `Expr.varies` says what it means for the expression alone:
there is a variable in it.

* `Sound.dynamic_eq_varies`, `Sound.dynamic_iff`: the flag of a node says whether a variable is a
  part of it.
* `Sound.eval_constant`: what cannot change has one value, whatever the environment.
-/

namespace DataBinding

variable {ι κ : Type}

/-! ### Variables in an expression -/

namespace Expr

/-- `e` is the expression or a part of it. -/
inductive PartOf (e : Expr ι) : Expr ι → Prop where
  | self : PartOf e e
  | child {c whole : Expr ι} (hc : c ∈ whole.children) (h : PartOf e c) : PartOf e whole

theorem Every.of_partOf {P : Layer Unit → Prop} {e whole : Expr ι} (h : whole.Every P)
    (he : e.PartOf whole) : P e.layer.outline := by
  induction he with
  | self => exact ((every_iff _).mp h).1
  | child hc _ ih => exact ih (((every_iff _).mp h).2 _ hc)

/-- Whether there is a variable in the expression. -/
def varies : Expr ι → Bool
  | literal _ _ _ => false
  | identifier _ _ _ => true
  | property _ target _ => target.varies
  | binary _ left _ right => left.varies || right.varies
  | unary _ _ operand => operand.varies
  | group _ inner => inner.varies
  | cast _ _ operand => operand.varies
  | conditional _ condition positive negative =>
    condition.varies || (positive.varies || negative.varies)
  | assign _ target value _ => target.varies || value.varies

theorem varies_eq (e : Expr ι) : e.varies = (e.layer.map varies).isDynamic := by
  cases e <;> simp [varies, layer, Layer.map, Layer.isDynamic, Layer.children]

/-- A variable varies, and so does what has a part that varies. -/
theorem varies_iff_child (e : Expr ι) :
    e.varies = true ↔ (∃ l name ty, e = identifier l name ty) ∨ ∃ c ∈ e.children, c.varies = true := by
  cases e <;> simp [varies, children, layer, Layer.children]

theorem varies_iff (e : Expr ι) :
    e.varies = true ↔ ∃ l name ty, (identifier l name ty).PartOf e := by
  constructor
  · induction e using children_induction with
    | step e ih =>
        intro h
        rcases e.varies_iff_child.mp h with ⟨l, name, ty, rfl⟩ | ⟨c, hc, hvaries⟩
        · exact ⟨l, name, ty, .self⟩
        · obtain ⟨l, name, ty, hpart⟩ := ih c hc hvaries
          exact ⟨l, name, ty, .child hc hpart⟩
  · rintro ⟨l, name, ty, hpart⟩
    induction hpart with
    | self => rfl
    | @child c whole hc _ ih => exact whole.varies_iff_child.mpr (.inr ⟨c, hc, ih⟩)

theorem varies_bare (e : Expr ι) : e.bare.varies = e.varies := by
  induction e with
  | literal | identifier => rfl
  | property _ _ _ ih | unary _ _ _ ih | group _ _ ih | cast _ _ _ ih => simp only [bare, varies, ih]
  | binary _ _ _ _ ih₁ ih₂ | assign _ _ _ _ ih₁ ih₂ => simp only [bare, varies, ih₁, ih₂]
  | conditional _ _ _ _ ih₁ ih₂ ih₃ => simp only [bare, varies, ih₁, ih₂, ih₃]

theorem varies_eq_of_bare {a : Expr ι} {b : Expr κ} (h : a.bare = b.bare) : a.varies = b.varies := by
  rw [← varies_bare a, h, varies_bare b]

end Expr

/-! ### The flag of a node -/

namespace Model

variable {m : Model} {n : Node}

/-- The parts of a node of the model are nodes of the model. -/
theorem Sound.holds_part (hm : m.Sound) (hn : m.Holds n) {e : Node} (h : e.PartOf n) :
    m.Holds e := by
  induction h with
  | self => exact hn
  | child hc _ ih => exact ih (hm.child hn hc)

/-- What holds of all nodes holds of the parts of a node. -/
theorem All.part {P : Layer String → Prop} (h : m.All P) (hm : m.Sound) (hn : m.Holds n) :
    ∀ e : Node, e.PartOf n → P (e.layer.map (·.label.key)) :=
  fun e he => h e (hm.holds_part hn he)

/-- No part of a node is newer than the node. -/
theorem Sound.part_le (hm : m.Sound) (hn : m.Holds n) {e : Node} (h : e.PartOf n) :
    e.label.id ≤ n.label.id := by
  induction h with
  | self => exact Nat.le_refl _
  | child hc _ ih => exact Nat.le_trans (ih (hm.child hn hc)) (Nat.le_of_lt (hm.child_lt hn hc))

theorem Sound.constant_part (hm : m.Sound) (hn : m.Holds n) (hconst : n.label.dynamic = false)
    {e : Node} (h : e.PartOf n) : e.label.dynamic = false := by
  induction h with
  | self => exact hconst
  | child hc _ ih => exact ih (hm.child hn hc) (hm.constant_child hn hc hconst)

/-- The flag of a node says whether there is a variable in it. -/
theorem Sound.dynamic_eq_varies (hm : m.Sound) (hn : m.Holds n) : n.label.dynamic = n.varies := by
  induction n using Expr.children_induction with
  | step n ih =>
      rw [hm.dynamic hn, n.varies_eq, Layer.map_congr fun c hc => ih c hc (hm.child hn hc)]

theorem Sound.dynamic_iff (hm : m.Sound) (hn : m.Holds n) :
    n.label.dynamic = true ↔ ∃ l name ty, (Expr.identifier l name ty).PartOf n := by
  rw [hm.dynamic_eq_varies hn, n.varies_iff]

end Model

/-! ### Values -/

/-- The value of what is not read from the environment depends on the values of the parts only. -/
theorem Expr.eval_congr_children {e : Expr ι} {env env' : Env} (hleaf : e.isAssignable = false)
    (h : ∀ c ∈ e.children, c.eval env = c.eval env') : e.eval env = e.eval env' := by
  cases e with
  | literal => rfl
  | identifier | property => cases hleaf
  | _ => simp_all [children, layer, Layer.children, eval]

/-- A variable or property reads what the environment gives to its path. -/
theorem Expr.eval_of_isAssignable {e : Expr ι} (h : e.isAssignable = true) (env : Env) :
    e.eval env = env.read e.path? := by
  cases e with
  | identifier | property => rfl
  | _ => cases h

theorem Env.read_congr {env env' : Env} {path : Option String}
    (h : ∀ p, path = some p → env p = env' p) : env.read path = env'.read path := by
  cases path with
  | none => rfl
  | some p => simp only [Env.read, h p rfl]

/-- What cannot change has no path and one value, whatever the environment. -/
theorem Model.Sound.eval_constant {m : Model} {n : Node} (hm : m.Sound) (hn : m.Holds n)
    (hconst : n.label.dynamic = false) :
    n.path? = none ∧ ∀ env env', n.eval env = n.eval env' := by
  induction n using Expr.children_induction with
  | step n ih =>
      have part {c : Node} (hc : c ∈ n.children) :=
        ih c hc (hm.child hn hc) (hm.constant_child hn hc hconst)
      cases n with
      | identifier => cases (hm.dynamic hn).symm.trans hconst
      | property l target name =>
          have hpath := (part (List.mem_singleton_self target)).1
          refine ⟨by simp [Expr.path?, hpath], fun env env' => ?_⟩
          simp [Expr.eval, Expr.path?, hpath, Env.read]
      | _ =>
          exact ⟨rfl, fun env env' => Expr.eval_congr_children rfl fun c hc => (part hc).2 env env'⟩

end DataBinding
