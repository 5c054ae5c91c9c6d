import DataBinding.Proofs.Code.Draft
import DataBinding.Proofs.Model.Canonical

/-!
# Proofs — Code — what diagnostics show

Diagnostics show an expression by its text, which is put together apart from its code.  The two place
every parenthesis and blank alike but for two shapes: a cast is written with parentheses around it and
shown without them, and an assignment is written as the call of a setter and shown as an equation.

* `length_code`: without assignments, the code is longer than the text by two characters for each cast.
* `text_eq_code`: without casts either, it is the text.
* `text_code_of_path`: a path is shown and written as it is.
* `shown_as_written`: when diagnostics show the code.
-/

namespace DataBinding.Expr

variable {ι : Type} {e : Expr ι} {path : String}

/-! ### Texts of nodes -/

section Texts

variable (l : ι)

theorem text_property (owner : Expr ι) (name : String) :
    (property l owner name).text =
      (if owner.isAssignable then owner.text else "(" ++ owner.text ++ ")") ++ "." ++ name := by
  rw [text]
  split <;> simp [toString, ← String.toList_inj]

theorem text_binary (left : Expr ι) (op : BinaryOp) (right : Expr ι) :
    (binary l left op right).text =
      "(" ++ left.text ++ ") " ++ op.symbol ++ " (" ++ right.text ++ ")" := rfl

theorem text_unary (op : UnaryOp) (operand : Expr ι) :
    (unary l op operand).text = op.symbol ++ "(" ++ operand.text ++ ")" := rfl

theorem text_group (inner : Expr ι) : (group l inner).text = "(" ++ inner.text ++ ")" := rfl

theorem text_cast (ty : String) (operand : Expr ι) :
    (cast l ty operand).text = "(" ++ ty ++ ") (" ++ operand.text ++ ")" := rfl

theorem text_conditional (condition positive negative : Expr ι) :
    (conditional l condition positive negative).text =
      "(" ++ condition.text ++ ") ? (" ++ positive.text ++ ") : (" ++ negative.text ++ ")" := rfl

end Texts

/-! ### Casts and assignments in an expression -/

/-- The number of casts in the expression. -/
def casts : Expr ι → Nat
  | literal _ _ _ | identifier _ _ _ => 0
  | property _ a _ | unary _ _ a | group _ a => a.casts
  | binary _ a _ b | assign _ a b _ => a.casts + b.casts
  | cast _ _ a => a.casts + 1
  | conditional _ a b c => a.casts + b.casts + c.casts

/-- What has no casts is none, and has no part with casts. -/
theorem casts_eq_zero_iff_children (e : Expr ι) :
    e.casts = 0 ↔ (∀ l ty a, e ≠ cast l ty a) ∧ ∀ c ∈ e.children, c.casts = 0 := by
  cases e <;> simp [casts, children, layer, Layer.children, and_assoc]

theorem casts_eq_zero_iff (e : Expr ι) : e.casts = 0 ↔ ¬ ∃ l ty a, (cast l ty a).PartOf e := by
  constructor
  · rintro h ⟨l, ty, a, hpart⟩
    induction hpart with
    | self => cases h
    | @child c whole hc _ ih => exact ih ((whole.casts_eq_zero_iff_children.mp h).2 c hc)
  · induction e using children_induction with
    | step e ih =>
        intro h
        refine e.casts_eq_zero_iff_children.mpr ⟨?_, fun c hc => ih c hc ?_⟩
        · rintro l ty a rfl
          exact h ⟨l, ty, a, .self⟩
        · rintro ⟨l, ty, a, hpart⟩
          exact h ⟨l, ty, a, .child hc hpart⟩

/-- There is an assignment in the expression. -/
def Assigns (e : Expr ι) : Prop := ∃ l target value context, (assign l target value context).PartOf e

theorem Assigns.of_child {c : Expr ι} (hc : c ∈ e.children) (h : c.Assigns) : e.Assigns := by
  obtain ⟨l, target, value, context, hpart⟩ := h
  exact ⟨l, target, value, context, .child hc hpart⟩

/-! ### Texts and codes -/

/-- Without assignments, each cast is written with two characters more than it is shown with. -/
theorem length_code (h : ¬ e.Assigns) (setter : String) :
    (e.code setter).toList.length = e.text.toList.length + 2 * e.casts := by
  induction e using children_induction with
  | step e ih =>
      have part {c : Expr ι} (hc : c ∈ e.children) := ih c hc fun ha => h (.of_child hc ha)
      cases e with
      | literal => rw [code_literal]; rfl
      | identifier => rw [code_identifier]; rfl
      | property l target name =>
          have htarget := part (List.mem_singleton_self target)
          rw [code_property, text_property]
          split <;> simp [htarget, casts] <;> omega
      | binary l left op right =>
          have hleft := part List.mem_cons_self
          have hright := part (List.mem_cons_of_mem _ List.mem_cons_self)
          simp [code_binary, text_binary, hleft, hright, casts]
          omega
      | unary l op operand =>
          simp [code_unary, text_unary, part (List.mem_singleton_self operand), casts]
          omega
      | group l inner =>
          simp [code_group, text_group, part (List.mem_singleton_self inner), casts]
          omega
      | cast l ty operand =>
          simp [code_cast, text_cast, part (List.mem_singleton_self operand), casts]
          omega
      | conditional l condition positive negative =>
          have hcondition := part List.mem_cons_self
          have hpositive := part (List.mem_cons_of_mem _ List.mem_cons_self)
          have hnegative := part (List.mem_cons_of_mem _ (List.mem_cons_of_mem _ List.mem_cons_self))
          simp [code_conditional, text_conditional, hcondition, hpositive, hnegative, casts]
          omega
      | assign l target value context => exact absurd ⟨l, target, value, context, .self⟩ h

/-- Without assignments and casts, the code is the text. -/
theorem text_eq_code (h : ¬ e.Assigns) (hcasts : e.casts = 0) (setter : String) :
    e.text = e.code setter := by
  induction e using children_induction with
  | step e ih =>
      obtain ⟨hnone, hchildren⟩ := e.casts_eq_zero_iff_children.mp hcasts
      have part {c : Expr ι} (hc : c ∈ e.children) :=
        ih c hc (fun ha => h (.of_child hc ha)) (hchildren c hc)
      cases e with
      | literal => rw [code_literal]; rfl
      | identifier => rw [code_identifier]; rfl
      | property l target name =>
          rw [code_property, text_property, part (List.mem_singleton_self target)]
      | binary l left op right =>
          rw [code_binary, text_binary, part List.mem_cons_self,
            part (List.mem_cons_of_mem _ List.mem_cons_self)]
      | unary l op operand =>
          rw [code_unary, text_unary, part (List.mem_singleton_self operand)]
      | group l inner => rw [code_group, text_group, part (List.mem_singleton_self inner)]
      | cast l ty operand => exact absurd rfl (hnone l ty operand)
      | conditional l condition positive negative =>
          rw [code_conditional, text_conditional, part List.mem_cons_self,
            part (List.mem_cons_of_mem _ List.mem_cons_self),
            part (List.mem_cons_of_mem _ (List.mem_cons_of_mem _ List.mem_cons_self))]
      | assign l target value context => exact absurd ⟨l, target, value, context, .self⟩ h

/-- A path is shown and written as it is. -/
theorem text_code_of_path (h : e.path? = some path) (setter : String) :
    e.text = path ∧ e.code setter = path := by
  induction e generalizing path with
  | identifier l name ty =>
      cases h
      exact ⟨rfl, code_identifier setter l name ty⟩
  | property l target name ih =>
      obtain ⟨above, habove, rfl⟩ := Option.map_eq_some_iff.mp h
      obtain ⟨htext, hcode⟩ := ih habove
      have hassignable : target.isAssignable = true := by
        cases target with
        | identifier | property => rfl
        | _ => cases habove
      constructor
      · rw [text_property, if_pos hassignable, htext]
        rfl
      · rw [code_property, if_pos hassignable, hcode]
        rfl
  | _ => cases h

/-- **Diagnostics show the code.**  An expression without assignments is shown as it is written, with
whatever word setters start, exactly if there is no cast in it.  A variable or a property chain on one
is shown and written as its path. -/
theorem shown_as_written (setter : String) (e : Expr ι) :
    (¬ e.Assigns → (e.text = e.code setter ↔ ¬ ∃ l ty a, (cast l ty a).PartOf e)) ∧
    ∀ path, e.path? = some path → e.text = path ∧ e.code setter = path := by
  refine ⟨fun h => ?_, fun path hpath => text_code_of_path hpath setter⟩
  rw [← casts_eq_zero_iff]
  refine ⟨fun heq => ?_, fun hcasts => text_eq_code h hcasts setter⟩
  have hlength := length_code h setter
  rw [← heq] at hlength
  omega

/-- `-(u.age) ? (u).name : u.name` is shown with the parentheses that it is written with, and `u.name`
without any. -/
theorem shown_as_written_conditional :
    ∃ u path e : Expr Unit,
      u = .identifier () "u" "User" ∧ path = .property () u "name" ∧
      e = .conditional () (.unary () .neg (.property () u "age"))
        (.property () (.group () u) "name") path ∧
      ¬ e.Assigns ∧ (¬ ∃ l ty a, (cast l ty a).PartOf e) ∧
      e.text = "(-(u.age)) ? (((u)).name) : (u.name)" ∧ e.text = e.code "with" ∧
      path.path? = some "u.name" ∧ path.text = "u.name" ∧ path.code "with" = "u.name" := by
  obtain ⟨u, hu⟩ : ∃ u : Expr Unit, u = .identifier () "u" "User" := ⟨_, rfl⟩
  obtain ⟨e, he⟩ : ∃ e : Expr Unit, e = .conditional () (.unary () .neg (.property () u "age"))
    (.property () (.group () u) "name") (.property () u "name") := ⟨_, rfl⟩
  have hassigns : ¬ e.Assigns := by simp [he, hu, Assigns, ← mem_parts, parts]
  have hcasts : ¬ ∃ l ty a, (cast l ty a).PartOf e := by
    rw [← casts_eq_zero_iff, he, hu]
    rfl
  refine ⟨u, _, e, hu, rfl, he, hassigns, hcasts, ?_,
    ((shown_as_written "with" e).1 hassigns).mpr hcasts, ?_, (shown_as_written "with" _).2 _ ?_⟩ <;>
  subst he hu <;> decide

end DataBinding.Expr
