import DataBinding.Code.Generate
import DataBinding.Expr.Eval

/-!
# Proofs — Expressions — what labels and declarations leave open

`Expr.bare` is an expression without its labels and without the declared types of its identifiers.
A key, a path, a text, code and a value are those of the bare expression, so expressions that are
equal when bare cannot be told apart by them.

`Layer.outline` is a node without its children: its shape, its operator and its own names.
`Expr.Every P` says that `P` holds of the outline of every node of an expression.
-/

namespace DataBinding

variable {ι κ : Type}

/-! ### Outlines -/

/-- The node without its children. -/
def Layer.outline {α : Type} (layer : Layer α) : Layer Unit := layer.map fun _ => ()

@[simp] theorem Layer.outline_map {α β : Type} (f : α → β) (layer : Layer α) :
    (layer.map f).outline = layer.outline := by
  cases layer <;> rfl

theorem Layer.map_congr {α β : Type} {f g : α → β} {layer : Layer α}
    (h : ∀ a ∈ layer.children, f a = g a) : layer.map f = layer.map g := by
  cases layer <;> simp_all [Layer.map, Layer.children]

namespace Expr

/-- `P` holds of the outline of every node. -/
def Every (P : Layer Unit → Prop) : Expr ι → Prop
  | literal _ text ty => P (.literal text ty)
  | identifier _ name ty => P (.identifier name ty)
  | property _ target name => P (.property () name) ∧ target.Every P
  | binary _ left op right => P (.binary () op ()) ∧ left.Every P ∧ right.Every P
  | unary _ op operand => P (.unary op ()) ∧ operand.Every P
  | group _ inner => P (.group ()) ∧ inner.Every P
  | cast _ ty operand => P (.cast ty ()) ∧ operand.Every P
  | conditional _ condition positive negative =>
    P (.conditional () () ()) ∧ condition.Every P ∧ positive.Every P ∧ negative.Every P
  | assign _ target value context => P (.assign () () context) ∧ target.Every P ∧ value.Every P

/-- The outermost node and the subexpressions below it. -/
theorem every_iff {P : Layer Unit → Prop} (e : Expr ι) :
    e.Every P ↔ P e.layer.outline ∧ ∀ c ∈ e.children, c.Every P := by
  cases e <;> simp [Every, layer, children, Layer.outline, Layer.map, Layer.children]

instance decidableEvery {P : Layer Unit → Prop} [DecidablePred P] :
    (e : Expr ι) → Decidable (e.Every P)
  | literal _ text ty => inferInstanceAs (Decidable (P (.literal text ty)))
  | identifier _ name ty => inferInstanceAs (Decidable (P (.identifier name ty)))
  | property _ target _ => @instDecidableAnd _ _ _ (decidableEvery target)
  | binary _ left _ right =>
    @instDecidableAnd _ _ _ (@instDecidableAnd _ _ (decidableEvery left) (decidableEvery right))
  | unary _ _ operand => @instDecidableAnd _ _ _ (decidableEvery operand)
  | group _ inner => @instDecidableAnd _ _ _ (decidableEvery inner)
  | cast _ _ operand => @instDecidableAnd _ _ _ (decidableEvery operand)
  | conditional _ condition positive negative =>
    @instDecidableAnd _ _ _ (@instDecidableAnd _ _ (decidableEvery condition)
      (@instDecidableAnd _ _ (decidableEvery positive) (decidableEvery negative)))
  | assign _ target value _ =>
    @instDecidableAnd _ _ _ (@instDecidableAnd _ _ (decidableEvery target) (decidableEvery value))

/-! ### Bare expressions -/

/-- The expression without its labels and without the declared types of its identifiers. -/
def bare : Expr ι → Expr Unit
  | literal _ text ty => .literal () text ty
  | identifier _ name _ => .identifier () name ""
  | property _ target name => .property () target.bare name
  | binary _ left op right => .binary () left.bare op right.bare
  | unary _ op operand => .unary () op operand.bare
  | group _ inner => .group () inner.bare
  | cast _ ty operand => .cast () ty operand.bare
  | conditional _ condition positive negative =>
    .conditional () condition.bare positive.bare negative.bare
  | assign _ target value context => .assign () target.bare value.bare context

theorem bare_bare (e : Expr ι) : e.bare.bare = e.bare := by
  induction e with
  | literal | identifier => rfl
  | property _ _ _ ih | unary _ _ _ ih | group _ _ ih | cast _ _ _ ih => simp only [bare, ih]
  | binary _ _ _ _ ih₁ ih₂ | assign _ _ _ _ ih₁ ih₂ => simp only [bare, ih₁, ih₂]
  | conditional _ _ _ _ ih₁ ih₂ ih₃ => simp only [bare, ih₁, ih₂, ih₃]

/-- The structural key is that of the bare expression. -/
theorem key_bare (e : Expr ι) : e.bare.key = e.key := by
  induction e with
  | literal => rfl
  | identifier => rfl
  | property _ _ _ ih | unary _ _ _ ih | group _ _ ih | cast _ _ _ ih => simp only [bare, key, ih]
  | binary _ _ _ _ ih₁ ih₂ | assign _ _ _ _ ih₁ ih₂ => simp only [bare, key, ih₁, ih₂]
  | conditional _ _ _ _ ih₁ ih₂ ih₃ => simp only [bare, key, ih₁, ih₂, ih₃]

theorem key_eq_of_bare {a : Expr ι} {b : Expr κ} (h : a.bare = b.bare) : a.key = b.key := by
  rw [← key_bare a, h, key_bare b]

/-- The path is that of the bare expression. -/
theorem path?_bare (e : Expr ι) : e.bare.path? = e.path? := by
  induction e with
  | property _ _ _ ih => simp only [bare, path?, ih]
  | _ => rfl

theorem path?_eq_of_bare {a : Expr ι} {b : Expr κ} (h : a.bare = b.bare) : a.path? = b.path? := by
  rw [← path?_bare a, h, path?_bare b]

theorem isAssignable_bare (e : Expr ι) : e.bare.isAssignable = e.isAssignable := by
  cases e <;> rfl

/-- The text is that of the bare expression. -/
theorem text_bare (e : Expr ι) : e.bare.text = e.text := by
  induction e with
  | literal | identifier => rfl
  | property _ _ _ ih => simp only [bare, text, isAssignable_bare, ih]
  | unary _ _ _ ih | group _ _ ih | cast _ _ _ ih => simp only [bare, text, ih]
  | binary _ _ _ _ ih₁ ih₂ | assign _ _ _ _ ih₁ ih₂ => simp only [bare, text, ih₁, ih₂]
  | conditional _ _ _ _ ih₁ ih₂ ih₃ => simp only [bare, text, ih₁, ih₂, ih₃]

theorem text_eq_of_bare {a : Expr ι} {b : Expr κ} (h : a.bare = b.bare) : a.text = b.text := by
  rw [← text_bare a, h, text_bare b]

/-- What is neither a variable nor a property has no setter. -/
theorem fragments_assign {target : Expr ι} (h : target.isAssignable = false) (setter : String)
    (l : ι) (value : Expr ι) (context : Context) :
    (assign l target value context).fragments setter =
      nest (target.fragments setter) ++ [.text " = "] ++ nest (value.fragments setter) := by
  cases target with
  | identifier | property => cases h
  | _ => rfl

/-- The code is that of the bare expression. -/
theorem fragments_bare (setter : String) (e : Expr ι) :
    e.bare.fragments setter = e.fragments setter := by
  induction e with
  | literal | identifier => rfl
  | property _ _ _ ih => simp only [bare, fragments, isAssignable_bare, ih]
  | unary _ _ _ ih | group _ _ ih | cast _ _ _ ih => simp only [bare, fragments, ih]
  | binary _ _ _ _ ih₁ ih₂ => simp only [bare, fragments, ih₁, ih₂]
  | conditional _ _ _ _ ih₁ ih₂ ih₃ => simp only [bare, fragments, ih₁, ih₂, ih₃]
  | assign _ target _ _ ih₁ ih₂ =>
      cases target with
      | identifier => simp only [bare, fragments, ih₂]
      | property l owner name =>
          -- what is written of the property is its owner, with which its own code begins
          simp only [bare, fragments, isAssignable_bare] at ih₁
          simp only [bare, fragments, isAssignable_bare, List.append_cancel_right ih₁, ih₂]
      | _ =>
          rw [bare, fragments_assign (isAssignable_bare _), fragments_assign rfl, ih₁, ih₂]

theorem code_eq_of_bare {a : Expr ι} {b : Expr κ} (h : a.bare = b.bare) (setter : String) :
    a.code setter = b.code setter := by
  rw [code, code, ← fragments_bare setter a, h, fragments_bare setter b]

/-- The value is that of the bare expression. -/
theorem eval_bare (env : Env) (e : Expr ι) : e.bare.eval env = e.eval env := by
  induction e with
  | literal => rfl
  | identifier => rfl
  | property _ _ _ _ => simp only [bare, eval, path?, path?_bare]
  | unary _ _ _ ih | group _ _ ih | cast _ _ _ ih => simp only [bare, eval, ih]
  | binary _ _ _ _ ih₁ ih₂ => simp only [bare, eval, ih₁, ih₂]
  | conditional _ _ _ _ ih₁ ih₂ ih₃ => simp only [bare, eval, ih₁, ih₂, ih₃]
  | assign _ _ _ _ _ ih => simp only [bare, eval, ih]

theorem eval_eq_of_bare {a : Expr ι} {b : Expr κ} (h : a.bare = b.bare) (env : Env) :
    a.eval env = b.eval env := by
  rw [← eval_bare env a, h, eval_bare env b]

end Expr

end DataBinding
