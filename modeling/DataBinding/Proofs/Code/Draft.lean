import DataBinding.Code.Generate

/-!
# Proofs — Code — what a draft holds

A draft keeps code as a tree of nested parts, but its text is what has been written, in order:
writing a text appends it, and opening and closing parts changes nothing
(`CodeDraft.finish_writeAll`).  This holds for every sequence of fragments, also for one that closes
parts which are not open or leaves parts open.

So the code of an expression is put together from the codes of its subexpressions, and there is one
equation for each shape of node.
-/

namespace DataBinding

/-! ### Texts of fragments -/

namespace Fragment

/-- What a fragment writes. -/
def written : Fragment → String
  | .text s => s
  | .enter | .leave => ""

/-- The text of a fragment that is one. -/
def text? : Fragment → Option String
  | .text s => some s
  | .enter | .leave => none

theorem plain_eq_join (fs : List Fragment) : plain fs = String.join (fs.filterMap text?) := by
  rw [plain, String.join, List.foldl_filterMap]
  congr 1
  funext out f
  cases f <;> rfl

@[simp] theorem plain_nil : plain [] = "" := rfl

@[simp] theorem plain_cons (f : Fragment) (fs : List Fragment) :
    plain (f :: fs) = f.written ++ plain fs := by
  rw [plain_eq_join, plain_eq_join]
  cases f <;> simp [List.filterMap_cons, text?, written]

@[simp] theorem plain_append (fs gs : List Fragment) : plain (fs ++ gs) = plain fs ++ plain gs := by
  rw [plain_eq_join, List.filterMap_append, String.join_append, ← plain_eq_join, ← plain_eq_join]

end Fragment

/-! ### Texts of drafts -/

theorem CodeTree.flattenAll_append (a b : List CodeTree) :
    flattenAll (a ++ b) = flattenAll a ++ flattenAll b := by
  induction a with
  | nil => simp [flattenAll]
  | cons part rest ih => rw [List.cons_append, flattenAll, ih, flattenAll, String.append_assoc]

namespace CodeDraft

/-- The text of a reversed sequence of parts. -/
def textOf (parts : List CodeTree) : String := CodeTree.flattenAll parts.reverse

theorem textOf_cons (part : CodeTree) (parts : List CodeTree) :
    textOf (part :: parts) = textOf parts ++ part.flatten := by
  simp [textOf, CodeTree.flattenAll_append, CodeTree.flattenAll]

theorem textOf_appendText (s : String) (parts : List CodeTree) :
    textOf (appendText s parts) = textOf parts ++ s := by
  cases parts with
  | nil => simp [appendText, textOf_cons, CodeTree.flatten]
  | cons last parts =>
      cases last <;> simp [appendText, textOf_cons, CodeTree.flatten, String.append_assoc]

/-- The text of a draft: the texts of its parts, the outermost first. -/
def text (d : CodeDraft) : String :=
  d.opened.foldr (fun part outer => outer ++ textOf part) (textOf d.root)

/-- What is appended to the innermost part is appended to the text. -/
theorem text_modifyCurrent {f : List CodeTree → List CodeTree} {s : String}
    (hf : ∀ parts, textOf (f parts) = textOf parts ++ s) (d : CodeDraft) :
    (d.modifyCurrent f).text = d.text ++ s := by
  obtain ⟨root, opened⟩ := d
  cases opened with
  | nil => exact hf root
  | cons innermost outer => simp [modifyCurrent, text, hf, String.append_assoc]

theorem text_close (d : CodeDraft) : d.close.text = d.text := by
  obtain ⟨root, opened⟩ := d
  cases opened with
  | nil => rfl
  | cons innermost outer =>
      have hnested (parts : List CodeTree) :
          textOf (.nested innermost.reverse :: parts) = textOf parts ++ textOf innermost :=
        textOf_cons _ parts
      exact text_modifyCurrent hnested ⟨root, outer⟩

theorem text_write (d : CodeDraft) (f : Fragment) : (d.write f).text = d.text ++ f.written := by
  cases f with
  | text s =>
      rw [write]
      split
      · rename_i hempty
        simp [Fragment.written, String.isEmpty_iff.mp hempty]
      · exact text_modifyCurrent (textOf_appendText s) d
  | enter => rfl
  | leave => simp [write, text_close, Fragment.written]

theorem text_writeAll (d : CodeDraft) (fs : List Fragment) :
    (d.writeAll fs).text = d.text ++ Fragment.plain fs := by
  induction fs generalizing d with
  | nil => simp [writeAll]
  | cons f fs ih =>
      calc (d.writeAll (f :: fs)).text
        _ = (d.write f).text ++ Fragment.plain fs := ih (d.write f)
        _ = d.text ++ Fragment.plain (f :: fs) := by
          rw [text_write, Fragment.plain_cons, String.append_assoc]

theorem opened_close (d : CodeDraft) : d.close.opened.length = d.opened.length - 1 := by
  obtain ⟨root, opened⟩ := d
  match opened with
  | [] | [_] | _ :: _ :: _ => rfl

/-- Closing parts keeps the text, and closing as many as there are leaves none open. -/
theorem closeMany_spec (n : Nat) (d : CodeDraft) (h : d.opened.length ≤ n) :
    (closeMany n d).text = d.text ∧ (closeMany n d).opened = [] := by
  induction n generalizing d with
  | zero => exact ⟨rfl, List.eq_nil_of_length_eq_zero (Nat.le_zero.mp h)⟩
  | succ n ih =>
      have hclosed := ih d.close (by rw [opened_close]; omega)
      exact ⟨hclosed.1.trans d.text_close, hclosed.2⟩

theorem finish_eq_text (d : CodeDraft) : d.finish = d.text := by
  obtain ⟨htext, hopened⟩ := closeMany_spec d.opened.length d (Nat.le_refl _)
  rw [← htext, text, hopened]
  rfl

/-- **A draft holds what has been written.** -/
theorem finish_writeAll (fs : List Fragment) :
    (({} : CodeDraft).writeAll fs).finish = Fragment.plain fs := by
  rw [finish_eq_text, text_writeAll]
  exact String.empty_append

end CodeDraft

/-! ### Codes of nodes -/

namespace Expr

variable {ι : Type} (s : String) (l : ι)

theorem code_eq_plain (e : Expr ι) : e.code s = Fragment.plain (e.fragments s) :=
  CodeDraft.finish_writeAll _

@[simp] theorem plain_nest (fs : List Fragment) : Fragment.plain (nest fs) = Fragment.plain fs := by
  simp [nest, Fragment.written]

theorem code_literal (text ty : String) : (literal l text ty).code s = text := by
  simp [code_eq_plain, fragments, Fragment.written]

theorem code_identifier (name ty : String) : (identifier l name ty).code s = name := by
  simp [code_eq_plain, fragments, Fragment.written]

theorem code_property (owner : Expr ι) (name : String) :
    (property l owner name).code s =
      (if owner.isAssignable then owner.code s else "(" ++ owner.code s ++ ")") ++ "." ++ name := by
  rw [code_eq_plain, fragments, Expr.owner]
  split <;> simp [code_eq_plain, Fragment.written, ← String.toList_inj]

theorem code_binary (left : Expr ι) (op : BinaryOp) (right : Expr ι) :
    (binary l left op right).code s =
      "(" ++ left.code s ++ ") " ++ op.symbol ++ " (" ++ right.code s ++ ")" := by
  simp [code_eq_plain, fragments, Fragment.written, ← String.toList_inj]

theorem code_unary (op : UnaryOp) (operand : Expr ι) :
    (unary l op operand).code s = op.symbol ++ "(" ++ operand.code s ++ ")" := by
  simp [code_eq_plain, fragments, Fragment.written, ← String.toList_inj]

theorem code_group (inner : Expr ι) : (group l inner).code s = "(" ++ inner.code s ++ ")" := by
  simp [code_eq_plain, fragments, Fragment.written, ← String.toList_inj]

theorem code_cast (ty : String) (operand : Expr ι) :
    (cast l ty operand).code s = "((" ++ ty ++ ") (" ++ operand.code s ++ "))" := by
  simp [code_eq_plain, fragments, Fragment.written, ← String.toList_inj]

theorem code_conditional (condition positive negative : Expr ι) :
    (conditional l condition positive negative).code s =
      "(" ++ condition.code s ++ ") ? (" ++ positive.code s ++ ") : (" ++ negative.code s ++ ")" := by
  simp [code_eq_plain, fragments, Fragment.written, ← String.toList_inj]

end Expr

end DataBinding
