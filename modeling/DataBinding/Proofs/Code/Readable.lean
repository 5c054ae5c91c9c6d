import DataBinding.Proofs.Code.Draft
import DataBinding.Proofs.Expr.Key

/-!
# Proofs — Code — generated code is uniquely readable

Operands stand in parentheses, so code can be read without precedences.  A parenthesis is closed by
the one that balances it (`Balanced.enclose_inj`), and what stands behind the parenthesis that closes
the first tells apart the shapes of nodes that begin with one (`CodeShape.ofText`).

Names have to be words, and literals must not look like words (`Layer.Readable`).  Assignments are left
out: the code of an assignment to a variable is that of a call.

* `Expr.ofText_codeChars`: the shape of a node is read off its code.
* `Expr.untyped_eq_of_codeChars`: expressions have the same code only if they are the same up to
  the declared types of their literals and identifiers.
-/

namespace DataBinding

variable {ι κ : Type}

/-! ### Parentheses -/

/-- A text in parentheses, with another behind it. -/
def enclose (a r : List Char) : List Char := '(' :: (a ++ ')' :: r)

theorem append_enclose (a r s : List Char) : enclose a r ++ s = enclose a (r ++ s) := by
  simp [enclose]

@[simp] theorem getLast?_enclose (a r : List Char) :
    (enclose a r).getLast? = some (r.getLast?.getD ')') := by
  simp [enclose, List.getLast?_cons]

/-- What stands behind the parenthesis that closes one opened before the text, where the given number
of others have been opened inside it. -/
def behind? : Nat → List Char → Option (List Char)
  | _, [] => none
  | depth, c :: rest =>
    if c = '(' then behind? (depth + 1) rest
    else if c ≠ ')' then behind? depth rest
    else if depth = 0 then some rest
    else behind? (depth - 1) rest

/-- Every parenthesis that is opened in the text is closed in it, and no other. -/
inductive Balanced : List Char → Prop where
  | nil : Balanced []
  | char {c : Char} {r : List Char} (hopen : c ≠ '(') (hclose : c ≠ ')') (hr : Balanced r) :
      Balanced (c :: r)
  | enclose {a r : List Char} (ha : Balanced a) (hr : Balanced r) : Balanced (enclose a r)

namespace Balanced

variable {a b r s : List Char}

theorem append (ha : Balanced a) (hb : Balanced b) : Balanced (a ++ b) := by
  induction ha with
  | nil => exact hb
  | char hopen hclose _ ih => exact .char hopen hclose ih
  | enclose ha _ _ ih =>
      rw [append_enclose]
      exact .enclose ha ih

theorem of_not_mem (hopen : '(' ∉ a) (hclose : ')' ∉ a) : Balanced a := by
  induction a with
  | nil => exact .nil
  | cons c r ih =>
      rw [List.mem_cons, not_or] at hopen hclose
      exact .char (Ne.symm hopen.1) (Ne.symm hclose.1) (ih hopen.2 hclose.2)

/-- A balanced text does not close what is open before it. -/
theorem behind?_append (ha : Balanced a) (depth : Nat) (r : List Char) :
    behind? depth (a ++ r) = behind? depth r := by
  induction ha generalizing depth r with
  | nil => rfl
  | char hopen hclose _ ih =>
      rw [List.cons_append, behind?, if_neg hopen, if_pos hclose]
      exact ih depth r
  | enclose _ _ iha ihr =>
      rw [append_enclose, DataBinding.enclose, behind?, if_pos rfl, iha]
      exact ihr depth r

theorem behind?_close (ha : Balanced a) (r : List Char) : behind? 0 (a ++ ')' :: r) = some r :=
  ha.behind?_append 0 _

/-- A balanced text in parentheses tells where it ends. -/
theorem enclose_inj (ha : Balanced a) (hb : Balanced b)
    (h : DataBinding.enclose a r = DataBinding.enclose b s) : a = b ∧ r = s := by
  have htail : a ++ ')' :: r = b ++ ')' :: s := (List.cons.inj h).2
  have hrest : some r = some s := by rw [← ha.behind?_close r, htail, hb.behind?_close s]
  cases hrest
  exact ⟨List.append_cancel_right htail, rfl⟩

end Balanced

/-! ### Words -/

def isWordStart (c : Char) : Bool := c.isAlpha || c == '_'

def isWordChar (c : Char) : Bool := c.isAlphanum || c == '_'

/-- The name is not empty, consists of letters, digits and underscores, and begins with no digit. -/
def Word (name : String) : Prop :=
  name.toList.head?.any isWordStart = true ∧ name.toList.all isWordChar = true

instance (name : String) : Decidable (Word name) := inferInstanceAs (Decidable (_ ∧ _))

namespace Word

variable {name : String}

theorem not_mem (h : Word name) {c : Char} (hc : isWordChar c = false) : c ∉ name.toList := by
  intro hmem
  cases hc.symm.trans (List.all_eq_true.mp h.2 c hmem)

theorem balanced (h : Word name) : Balanced name.toList :=
  .of_not_mem (h.not_mem (by decide)) (h.not_mem (by decide))

theorem ne_nil (h : Word name) : name.toList ≠ [] := by
  intro hnil
  have hstart := h.1
  rw [hnil] at hstart
  cases hstart

/-- A text that ends in a word does not end in a parenthesis. -/
theorem getLast?_append (h : Word name) (text : List Char) :
    (text ++ name.toList).getLast? ≠ some ')' := by
  intro hlast
  rw [List.getLast?_append_of_ne_nil _ h.ne_nil] at hlast
  exact h.not_mem (by decide) (List.mem_of_getLast? hlast)

end Word

/-! ### Readable nodes -/

/-- Names are words, a literal does not begin like a word, and neither literals nor the types of casts
hold parentheses.  The node is no assignment. -/
def Layer.Readable {α : Type} : Layer α → Prop
  | .literal text _ =>
    text.toList.head?.any isWordStart = false ∧ '(' ∉ text.toList ∧ ')' ∉ text.toList
  | .identifier name _ | .property _ name => Word name
  | .cast ty _ => '(' ∉ ty.toList ∧ ')' ∉ ty.toList
  | .binary _ _ _ | .unary _ _ | .group _ | .conditional _ _ _ => True
  | .assign _ _ _ => False

instance Layer.decidableReadable {α : Type} : (layer : Layer α) → Decidable layer.Readable
  | .literal _ _ => inferInstanceAs (Decidable (_ ∧ _ ∧ _))
  | .identifier name _ | .property _ name => inferInstanceAs (Decidable (Word name))
  | .cast _ _ => inferInstanceAs (Decidable (_ ∧ _))
  | .binary _ _ _ | .unary _ _ | .group _ | .conditional _ _ _ => inferInstanceAs (Decidable True)
  | .assign _ _ _ => inferInstanceAs (Decidable False)

namespace Expr

/-- Every node of the expression is readable. -/
abbrev Readable (e : Expr ι) : Prop := e.Every Layer.Readable

/-! ### Codes as characters -/

/-- The characters of the code. -/
def codeChars (s : String) (e : Expr ι) : List Char := (e.code s).toList

section

variable (s : String) (l : ι)

theorem codeChars_literal (text ty : String) : (literal l text ty).codeChars s = text.toList := by
  rw [codeChars, code_literal]

theorem codeChars_identifier (name ty : String) :
    (identifier l name ty).codeChars s = name.toList := by
  rw [codeChars, code_identifier]

/-- The characters of the code of the owner of a property. -/
def ownerChars (owner : Expr ι) : List Char :=
  if owner.isAssignable then owner.codeChars s else enclose (owner.codeChars s) []

theorem codeChars_property (owner : Expr ι) (name : String) :
    (property l owner name).codeChars s = owner.ownerChars s ++ '.' :: name.toList := by
  rw [codeChars, code_property, ownerChars]
  split <;> simp [codeChars, enclose]

theorem codeChars_binary (left : Expr ι) (op : BinaryOp) (right : Expr ι) :
    (binary l left op right).codeChars s = enclose (left.codeChars s)
      (' ' :: (op.symbol.toList ++ ' ' :: enclose (right.codeChars s) [])) := by
  simp [codeChars, code_binary, enclose]

theorem codeChars_unary (op : UnaryOp) (operand : Expr ι) :
    (unary l op operand).codeChars s = op.symbol.toList ++ enclose (operand.codeChars s) [] := by
  simp [codeChars, code_unary, enclose]

theorem codeChars_group (inner : Expr ι) :
    (group l inner).codeChars s = enclose (inner.codeChars s) [] := by
  simp [codeChars, code_group, enclose]

theorem codeChars_cast (ty : String) (operand : Expr ι) :
    (cast l ty operand).codeChars s =
      enclose (enclose ty.toList (' ' :: enclose (operand.codeChars s) [])) [] := by
  simp [codeChars, code_cast, enclose]

theorem codeChars_conditional (condition positive negative : Expr ι) :
    (conditional l condition positive negative).codeChars s = enclose (condition.codeChars s)
      (" ? ".toList ++ enclose (positive.codeChars s)
        (" : ".toList ++ enclose (negative.codeChars s) [])) := by
  simp [codeChars, code_conditional, enclose]

end

theorem balanced_ownerChars {e : Expr ι} {s : String} (h : Balanced (e.codeChars s)) :
    Balanced (e.ownerChars s) := by
  rw [ownerChars]
  split
  · exact h
  · exact h.enclose .nil

theorem balanced_castInner {ty x : List Char} (hty : '(' ∉ ty ∧ ')' ∉ ty) (hx : Balanced x) :
    Balanced (enclose ty (' ' :: enclose x [])) :=
  (Balanced.of_not_mem hty.1 hty.2).enclose (.char (by decide) (by decide) (hx.enclose .nil))

theorem balanced_codeChars {e : Expr ι} (he : e.Readable) (s : String) :
    Balanced (e.codeChars s) := by
  induction e with
  | literal l text ty =>
      rw [codeChars_literal]
      exact .of_not_mem he.2.1 he.2.2
  | identifier l name ty =>
      rw [codeChars_identifier]
      exact Word.balanced he
  | property l owner name ih =>
      rw [codeChars_property]
      exact (balanced_ownerChars (ih he.2)).append (.char (by decide) (by decide) he.1.balanced)
  | binary l left op right ihl ihr =>
      have hop : Balanced op.symbol.toList := by cases op <;> exact .of_not_mem (by decide) (by decide)
      rw [codeChars_binary]
      exact (ihl he.2.1).enclose (.char (by decide) (by decide)
        (hop.append (.char (by decide) (by decide) ((ihr he.2.2).enclose .nil))))
  | unary l op operand ih =>
      have hop : Balanced op.symbol.toList := by cases op <;> exact .of_not_mem (by decide) (by decide)
      rw [codeChars_unary]
      exact hop.append ((ih he.2).enclose .nil)
  | group l inner ih =>
      rw [codeChars_group]
      exact (ih he.2).enclose .nil
  | cast l ty operand ih =>
      rw [codeChars_cast]
      exact (balanced_castInner he.1 (ih he.2)).enclose .nil
  | conditional l condition positive negative ihc ihp ihn =>
      have hnegative := (Balanced.of_not_mem (a := " : ".toList) (by decide) (by decide)).append
        ((ihn he.2.2.2).enclose .nil)
      have hpositive := (Balanced.of_not_mem (a := " ? ".toList) (by decide) (by decide)).append
        ((ihp he.2.2.1).enclose hnegative)
      rw [codeChars_conditional]
      exact (ihc he.2.1).enclose hpositive
  | assign => exact he.1.elim

end Expr

/-! ### Shapes -/

/-- What kind of node a code is the code of. -/
inductive CodeShape where
  | literal
  | name
  | member
  | operation
  | signed
  /-- A group or a cast. -/
  | enclosed
  | choice
  /-- The inside of a cast: two parentheses with nothing between them. -/
  | juxtaposed
deriving DecidableEq, Repr

namespace CodeShape

/-- The shape of a code that begins and ends with a parenthesis, from what stands behind the one that
closes the first. -/
def ofRest : List Char → CodeShape
  | [] => enclosed
  | ' ' :: '?' :: _ => choice
  | ' ' :: '(' :: _ => juxtaposed
  | _ => operation

/-- The shape of a code. -/
def ofText (text : List Char) : CodeShape :=
  if '(' ∉ text then
    if text.head?.any isWordStart then
      if '.' ∈ text then member else name
    else literal
  else if text.getLast? ≠ some ')' then member
  else if text.head? = some '(' then (behind? 0 text.tail).elim literal ofRest
  else signed

theorem ofText_enclose {a r : List Char} (ha : Balanced a) (hlast : r.getLast?.getD ')' = ')') :
    ofText (enclose a r) = ofRest r := by
  have hparen : '(' ∈ enclose a r := List.mem_cons_self
  have hend : (enclose a r).getLast? = some ')' := by rw [getLast?_enclose, hlast]
  have hhead : (enclose a r).head? = some '(' := rfl
  have hbehind : behind? 0 (enclose a r).tail = some r := ha.behind?_close r
  rw [ofText, if_neg (not_not_intro hparen), if_neg (not_not_intro hend), if_pos hhead, hbehind]
  rfl

end CodeShape

namespace Expr

variable {e : Expr ι} {a : Expr ι} {b : Expr κ} {s s' : String}

/-- The shape of the code of an expression without assignments. -/
def codeShape : Expr ι → CodeShape
  | literal _ _ _ => .literal
  | identifier _ _ _ => .name
  | property _ _ _ => .member
  | binary _ _ _ _ => .operation
  | unary _ _ _ => .signed
  | group _ _ | cast _ _ _ => .enclosed
  | conditional _ _ _ _ => .choice
  | assign _ _ _ _ => .juxtaposed

/-- A path without parentheses begins with a word. -/
theorem head?_path (he : e.Readable) (hassignable : e.isAssignable = true)
    (hparen : '(' ∉ e.codeChars s) : (e.codeChars s).head?.any isWordStart = true := by
  induction e with
  | identifier l name ty =>
      rw [codeChars_identifier]
      exact he.1
  | property l owner name ih =>
      rw [codeChars_property, ownerChars] at hparen ⊢
      split at hparen
      · rename_i howner
        have hhead := ih he.2 howner fun h => hparen (List.mem_append_left _ h)
        cases hchars : owner.codeChars s with
        | nil =>
            rw [hchars] at hhead
            cases hhead
        | cons c r =>
            rw [hchars] at hhead
            rw [if_pos howner]
            exact hhead
      · exact absurd List.mem_cons_self hparen
  | _ => cases hassignable

/-- The shape of a node is read off its code. -/
theorem ofText_codeChars (he : e.Readable) (s : String) :
    CodeShape.ofText (e.codeChars s) = e.codeShape := by
  cases e with
  | literal l text ty =>
      rw [codeChars_literal, CodeShape.ofText, if_pos he.2.1, if_neg (by rw [he.1]; decide)]
      rfl
  | identifier l name ty =>
      rw [codeChars_identifier, CodeShape.ofText, if_pos (Word.not_mem he (by decide)), if_pos he.1,
        if_neg (Word.not_mem he (by decide))]
      rfl
  | property l owner name =>
      rw [CodeShape.ofText]
      split
      · rename_i hparen
        rw [if_pos (head?_path he rfl hparen), if_pos (by simp [codeChars_property])]
        rfl
      · rw [if_pos]
        · rfl
        · rw [codeChars_property, List.append_cons]
          exact he.1.getLast?_append _
  | binary l left op right =>
      rw [codeChars_binary, CodeShape.ofText_enclose (balanced_codeChars he.2.1 s)]
      · cases op <;> rfl
      · simp [List.getLast?_cons]
  | unary l op operand =>
      rw [codeChars_unary, CodeShape.ofText, if_neg, if_neg, if_neg]
      · rfl
      · cases op <;> exact nofun
      · simp
      · simp [enclose]
  | group l inner =>
      rw [codeChars_group, CodeShape.ofText_enclose (balanced_codeChars he.2 s) rfl]
      rfl
  | cast l ty operand =>
      have hinner := balanced_castInner he.1 (balanced_codeChars he.2 s)
      rw [codeChars_cast, CodeShape.ofText_enclose hinner rfl]
      rfl
  | conditional l condition positive negative =>
      rw [codeChars_conditional, CodeShape.ofText_enclose (balanced_codeChars he.2.1 s)]
      · rfl
      · simp [List.getLast?_cons]
  | assign => exact he.1.elim

theorem codeShape_eq (ha : a.Readable) (hb : b.Readable) (h : a.codeChars s = b.codeChars s') :
    a.codeShape = b.codeShape := by
  rw [← ofText_codeChars ha s, h, ofText_codeChars hb s']

/-- The inside of a cast is no code. -/
theorem codeChars_ne_castInner (he : e.Readable) {ty x : List Char}
    (hty : '(' ∉ ty ∧ ')' ∉ ty) : e.codeChars s ≠ enclose ty (' ' :: enclose x []) := by
  intro h
  have hshape := ofText_codeChars he s
  rw [h, CodeShape.ofText_enclose (.of_not_mem hty.1 hty.2) (by simp [List.getLast?_cons])] at hshape
  cases e with
  | assign => exact he.1
  | _ => cases hshape

/-! ### Reading code -/

/-- Code in parentheses tells where it ends. -/
theorem enclose_codeChars_inj (ha : a.Readable) (hb : b.Readable) {r r' : List Char}
    (h : enclose (a.codeChars s) r = enclose (b.codeChars s') r') :
    a.codeChars s = b.codeChars s' ∧ r = r' :=
  (balanced_codeChars ha s).enclose_inj (balanced_codeChars hb s') h

/-- The expression without its labels and without the declared types of its literals and
identifiers. -/
def untyped : Expr ι → Expr Unit
  | literal _ text _ => .literal () text ""
  | identifier _ name _ => .identifier () name ""
  | property _ owner name => .property () owner.untyped name
  | binary _ left op right => .binary () left.untyped op right.untyped
  | unary _ op operand => .unary () op operand.untyped
  | group _ inner => .group () inner.untyped
  | cast _ ty operand => .cast () ty operand.untyped
  | conditional _ condition positive negative =>
    .conditional () condition.untyped positive.untyped negative.untyped
  | assign _ target value context => .assign () target.untyped value.untyped context

theorem isAssignable_untyped (e : Expr ι) : e.untyped.isAssignable = e.isAssignable := by
  cases e <;> rfl

/-- The code of a path ends in a word. -/
theorem getLast?_path (he : e.Readable) (hassignable : e.isAssignable = true) (s : String) :
    (e.codeChars s).getLast? ≠ some ')' := by
  cases e with
  | identifier l name ty =>
      rw [codeChars_identifier]
      exact Word.getLast?_append he []
  | property l owner name =>
      rw [codeChars_property, List.append_cons]
      exact he.1.getLast?_append _
  | _ => cases hassignable

/-- An owner is in parentheses or not, and its code tells. -/
theorem codeChars_eq_of_ownerChars (ha : a.Readable) (hb : b.Readable)
    (h : a.ownerChars s = b.ownerChars s') : a.codeChars s = b.codeChars s' := by
  rw [ownerChars, ownerChars] at h
  split at h <;> split at h
  · exact h
  · rename_i hassignable _
    exact absurd (by rw [h]; simp) (getLast?_path ha hassignable s)
  · rename_i hassignable
    exact absurd (by rw [← h]; simp) (getLast?_path hb hassignable s')
  · exact (enclose_codeChars_inj ha hb h).1

/-- Expressions with the same code are the same when untyped. -/
theorem untyped_eq_of_codeChars (ha : a.Readable) (hb : b.Readable)
    (h : a.codeChars s = b.codeChars s') : a.untyped = b.untyped := by
  -- The two have the same shape, and then their parts are read off one after the other.  Only a group
  -- and a cast have a shape in common: what they enclose is told apart by its own shape.
  induction a generalizing b with
  | literal l text ty =>
      cases b with
      | literal l' text' ty' =>
          rw [codeChars_literal, codeChars_literal] at h
          rw [untyped, untyped, String.toList_injective h]
      | _ => cases codeShape_eq ha hb h
  | identifier l name ty =>
      cases b with
      | identifier l' name' ty' =>
          rw [codeChars_identifier, codeChars_identifier] at h
          rw [untyped, untyped, String.toList_injective h]
      | _ => cases codeShape_eq ha hb h
  | property l owner name ih =>
      cases b with
      | property l' owner' name' =>
          rw [codeChars_property, codeChars_property] at h
          obtain ⟨howner, hname⟩ :=
            Key.append_last_inj (ha.1.not_mem (by decide)) (hb.1.not_mem (by decide)) h
          rw [untyped, untyped, ih ha.2 hb.2 (codeChars_eq_of_ownerChars ha.2 hb.2 howner),
            String.toList_injective hname]
      | _ => cases codeShape_eq ha hb h
  | binary l left op right ihl ihr =>
      cases b with
      | binary l' left' op' right' =>
          rw [codeChars_binary, codeChars_binary] at h
          obtain ⟨hleft, h₁⟩ := enclose_codeChars_inj ha.2.1 hb.2.1 h
          obtain ⟨rfl, h₂⟩ := BinaryOp.symbol_append_inj (List.cons.inj h₁).2
          obtain ⟨hright, -⟩ := enclose_codeChars_inj ha.2.2 hb.2.2 (List.cons.inj h₂).2
          rw [untyped, untyped, ihl ha.2.1 hb.2.1 hleft, ihr ha.2.2 hb.2.2 hright]
      | _ => cases codeShape_eq ha hb h
  | unary l op operand ih =>
      cases b with
      | unary l' op' operand' =>
          rw [codeChars_unary, codeChars_unary] at h
          obtain ⟨rfl, hrest⟩ := UnaryOp.symbol_append_inj h
          obtain ⟨hoperand, -⟩ := enclose_codeChars_inj ha.2 hb.2 hrest
          rw [untyped, untyped, ih ha.2 hb.2 hoperand]
      | _ => cases codeShape_eq ha hb h
  | group l inner ih =>
      cases b with
      | group l' inner' =>
          rw [codeChars_group, codeChars_group] at h
          obtain ⟨hinner, -⟩ := enclose_codeChars_inj ha.2 hb.2 h
          rw [untyped, untyped, ih ha.2 hb.2 hinner]
      | cast l' ty' operand' =>
          rw [codeChars_group, codeChars_cast] at h
          obtain ⟨hinner, -⟩ := (balanced_codeChars ha.2 s).enclose_inj
            (balanced_castInner hb.1 (balanced_codeChars hb.2 s')) h
          exact absurd hinner (codeChars_ne_castInner ha.2 hb.1)
      | _ => cases codeShape_eq ha hb h
  | cast l ty operand ih =>
      cases b with
      | cast l' ty' operand' =>
          rw [codeChars_cast, codeChars_cast] at h
          obtain ⟨hinner, -⟩ := (balanced_castInner ha.1 (balanced_codeChars ha.2 s)).enclose_inj
            (balanced_castInner hb.1 (balanced_codeChars hb.2 s')) h
          obtain ⟨hty, hrest⟩ := (Balanced.of_not_mem ha.1.1 ha.1.2).enclose_inj
            (.of_not_mem hb.1.1 hb.1.2) hinner
          obtain ⟨hoperand, -⟩ := enclose_codeChars_inj ha.2 hb.2 (List.cons.inj hrest).2
          rw [untyped, untyped, ih ha.2 hb.2 hoperand, String.toList_injective hty]
      | group l' inner' =>
          rw [codeChars_cast, codeChars_group] at h
          obtain ⟨hinner, -⟩ := (balanced_castInner ha.1 (balanced_codeChars ha.2 s)).enclose_inj
            (balanced_codeChars hb.2 s') h
          exact absurd hinner.symm (codeChars_ne_castInner hb.2 ha.1)
      | _ => cases codeShape_eq ha hb h
  | conditional l condition positive negative ihc ihp ihn =>
      cases b with
      | conditional l' condition' positive' negative' =>
          rw [codeChars_conditional, codeChars_conditional] at h
          obtain ⟨hcondition, h₁⟩ := enclose_codeChars_inj ha.2.1 hb.2.1 h
          obtain ⟨hpositive, h₂⟩ :=
            enclose_codeChars_inj ha.2.2.1 hb.2.2.1 (List.append_cancel_left h₁)
          obtain ⟨hnegative, -⟩ :=
            enclose_codeChars_inj ha.2.2.2 hb.2.2.2 (List.append_cancel_left h₂)
          rw [untyped, untyped, ihc ha.2.1 hb.2.1 hcondition, ihp ha.2.2.1 hb.2.2.1 hpositive,
            ihn ha.2.2.2 hb.2.2.2 hnegative]
      | _ => cases codeShape_eq ha hb h
  | assign => exact ha.1.elim

/-- Without assignments, code depends neither on labels and declared types nor on the setter word. -/
theorem codeChars_untyped (he : e.Readable) (s s' : String) :
    e.untyped.codeChars s = e.codeChars s' := by
  induction e with
  | literal => rw [untyped, codeChars_literal, codeChars_literal]
  | identifier => rw [untyped, codeChars_identifier, codeChars_identifier]
  | property l owner name ih =>
      rw [untyped, codeChars_property, codeChars_property, ownerChars, ownerChars,
        isAssignable_untyped, ih he.2]
  | binary l left op right ihl ihr =>
      rw [untyped, codeChars_binary, codeChars_binary, ihl he.2.1, ihr he.2.2]
  | unary l op operand ih => rw [untyped, codeChars_unary, codeChars_unary, ih he.2]
  | group l inner ih => rw [untyped, codeChars_group, codeChars_group, ih he.2]
  | cast l ty operand ih => rw [untyped, codeChars_cast, codeChars_cast, ih he.2]
  | conditional l condition positive negative ihc ihp ihn =>
      rw [untyped, codeChars_conditional, codeChars_conditional, ihc he.2.1, ihp he.2.2.1,
        ihn he.2.2.2]
  | assign => exact he.1.elim

/-- **Generated code is uniquely readable.**  Take two expressions without assignments, be they nodes of
one model or of two, whose identifiers and properties have words for names, whose casts are to types
without parentheses, and whose literals hold no parentheses and do not begin like a word.  They have the
same code, whatever the setter words are, only if they are the same tree up to the declared types of
their literals and identifiers, and then they have. -/
theorem code_uniquely_readable (ha : a.Readable) (hb : b.Readable) (s s' : String) :
    a.code s = b.code s' ↔ a.untyped = b.untyped := by
  constructor
  · exact fun h => untyped_eq_of_codeChars ha hb (congrArg String.toList h)
  · intro h
    apply String.toList_injective
    calc a.codeChars s
      _ = a.untyped.codeChars s := (codeChars_untyped ha s s).symm
      _ = b.codeChars s' := by rw [h, codeChars_untyped hb s s']

/-- Trees that differ in where groups stand and in how a number gets its sign have different codes. -/
theorem code_uniquely_readable_casts :
    ∃ a b : Expr Unit,
      a = .binary () (.group () (.cast () "int" (.literal () "-1" "int"))) .sub
        (.property () (.property () (.group () (.identifier () "u" "User")) "address") "zip_2") ∧
      b = .binary () (.cast () "int" (.group () (.unary () .neg (.literal () "1" "long")))) .sub
        (.property () (.property () (.identifier () "u" "User") "address") "zip_2") ∧
      a.Readable ∧ b.Readable ∧ a.untyped ≠ b.untyped ∧
      a.code "set" = "((((int) (-1)))) - (((u)).address.zip_2)" ∧ a.code "set" ≠ b.code "set" := by
  refine ⟨_, _, rfl, rfl, by decide, by decide, by decide, by decide +kernel, ?_⟩
  exact fun h => absurd ((code_uniquely_readable (by decide) (by decide) "set" "set").mp h) (by decide)

end Expr

end DataBinding
