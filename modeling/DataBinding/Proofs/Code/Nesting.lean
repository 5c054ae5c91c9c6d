import DataBinding.Proofs.Code.Draft
import DataBinding.Proofs.Expr.Bare

/-!
# Proofs — Code — nesting

Whoever receives fragments may collect them in a draft, append their texts to a string, or record them
and join the texts later.  Of these only a draft takes account of nesting.  Nesting never changes the
text, whether it is balanced or not, so all of them get the same text; and the nesting of an
expression's code is balanced, so that a draft of it has no part left open.

* `Fragment.wellNested_iff_depth?`: nesting is balanced, in a grammar and in the count of open parts.
* `CodeDraft.opened_writeAll`: the count is that of the parts that a draft has open.
* `Expr.fragments_wellNested`: the code of an expression is balanced.
* `Expr.receivers_agree`: all receivers get the same text.
-/

namespace DataBinding

namespace Fragment

variable {fs gs : List Fragment} {n : Nat}

/-! ### Balanced nesting -/

/-- Every part that is opened is closed later on, by a mark of its own, and there is no mark that closes
a part when none is open. -/
inductive WellNested : List Fragment → Prop where
  | nil : WellNested []
  | text (s : String) : WellNested [.text s]
  | append {fs gs : List Fragment} (hf : WellNested fs) (hg : WellNested gs) : WellNested (fs ++ gs)
  | nest {fs : List Fragment} (h : WellNested fs) : WellNested (Expr.nest fs)

theorem WellNested.texts (ss : List String) : WellNested (ss.map .text) := by
  induction ss with
  | nil => exact .nil
  | cons s ss ih => exact .append (.text s) ih

/-- The number of open parts after the fragments, from the number of those before.  There is none if a
part is closed when none is open. -/
def depth? : Nat → List Fragment → Option Nat
  | n, [] => some n
  | n, .text _ :: fs => depth? n fs
  | n, .enter :: fs => depth? (n + 1) fs
  | 0, .leave :: _ => none
  | n + 1, .leave :: fs => depth? n fs

theorem depth?_append (n : Nat) (fs gs : List Fragment) :
    depth? n (fs ++ gs) = (depth? n fs).bind (depth? · gs) := by
  fun_induction depth? n fs with
  | case1 n => rfl
  | case2 n s fs ih | case3 n fs ih | case5 n fs ih => simpa [depth?] using ih
  | case4 fs => rfl

/-- What is balanced leaves as many parts open as there were. -/
theorem WellNested.depth?_eq (h : WellNested fs) (n : Nat) : depth? n fs = some n := by
  induction h generalizing n with
  | nil | text => rfl
  | append _ _ ihf ihg => rw [depth?_append, ihf, Option.bind_some, ihg]
  | nest _ ih =>
      rw [Expr.nest, List.cons_append, depth?, depth?_append, ih]
      rfl

/-- The fragments close `n` parts, and between the marks that do so they are balanced. -/
inductive Closes : Nat → List Fragment → Prop where
  | last {fs : List Fragment} (h : WellNested fs) : Closes 0 fs
  | leave {n : Nat} {fs gs : List Fragment} (hf : WellNested fs) (hg : Closes n gs) :
      Closes (n + 1) (fs ++ .leave :: gs)

theorem Closes.prepend (hg : Closes n gs) (hf : WellNested fs) : Closes n (fs ++ gs) := by
  cases hg with
  | last h => exact .last (.append hf h)
  | leave h hrest =>
      rw [← List.append_assoc]
      exact .leave (.append hf h) hrest

theorem closes_of_depth? (h : depth? n fs = some 0) : Closes n fs := by
  fun_induction depth? n fs with
  | case1 n =>
      cases h
      exact .last .nil
  | case2 n s fs ih => exact (ih h).prepend (.text s)
  | case3 n fs ih =>
      -- the first part that the rest closes is the one that is opened here
      cases ih h with
      | @leave _ inner rest hinner hrest =>
          have hnested := hrest.prepend (.nest hinner)
          rwa [Expr.nest, List.append_assoc] at hnested
  | case4 fs => cases h
  | case5 n fs ih => exact .leave .nil (ih h)

/-- Nesting is balanced if no part is closed when none is open, and none is open at the end. -/
theorem wellNested_iff_depth? : WellNested fs ↔ depth? 0 fs = some 0 := by
  refine ⟨fun h => h.depth?_eq 0, fun h => ?_⟩
  cases closes_of_depth? h with
  | last h => exact h

instance (fs : List Fragment) : Decidable (WellNested fs) :=
  decidable_of_iff _ wellNested_iff_depth?.symm

example : ¬ WellNested [.leave, .text "x", .enter] := by decide

end Fragment

/-! ### Open parts of a draft -/

namespace CodeDraft

open Fragment

variable {d : CodeDraft} {n : Nat}

theorem opened_modifyCurrent (f : List CodeTree → List CodeTree) (d : CodeDraft) :
    (d.modifyCurrent f).opened.length = d.opened.length := by
  obtain ⟨root, opened⟩ := d
  cases opened <;> rfl

/-- Where no part is closed when none is open, the parts that a draft has open can be counted from the
fragments. -/
theorem opened_writeAll (fs : List Fragment) (h : depth? d.opened.length fs = some n) :
    (d.writeAll fs).opened.length = n := by
  induction fs generalizing d with
  | nil => exact Option.some.inj h
  | cons f fs ih =>
      refine ih (d := d.write f) ?_
      cases f with
      | text s =>
          rw [write]
          split
          · exact h
          · rw [opened_modifyCurrent]
            exact h
      | enter => exact h
      | leave =>
          rw [write, opened_close]
          cases hopened : d.opened.length with
          | zero =>
              rw [hopened] at h
              cases h
          | succ k =>
              rw [hopened] at h
              exact h

end CodeDraft

/-! ### Codes of expressions -/

namespace Expr

open Fragment

variable {ι : Type}

/-- A part with texts around it. -/
theorem wellNested_around {fs : List Fragment} (before after : List String) (h : WellNested fs) :
    WellNested (before.map .text ++ nest fs ++ after.map .text) :=
  .append (.append (.texts before) (.nest h)) (.texts after)

theorem owner_wellNested {fs : List Fragment} (assignable : Bool) (h : WellNested fs) :
    WellNested (owner assignable fs) := by
  rw [owner]
  split
  · exact .nest h
  · exact wellNested_around ["("] [")"] h

/-- The code of an expression is balanced. -/
theorem fragments_wellNested (setter : String) : ∀ e : Expr ι, WellNested (e.fragments setter)
  | literal _ text _ => .text text
  | identifier _ name _ => .text name
  | property _ target name =>
      .append (owner_wellNested _ (fragments_wellNested setter target)) (.texts [".", name])
  | binary _ left op right => by
      have hleft := wellNested_around ["("] [") ", op.symbol, " ("] (fragments_wellNested setter left)
      have hright := hleft.append (.nest (fragments_wellNested setter right))
      exact hright.append (.text ")")
  | unary _ op operand =>
      wellNested_around [op.symbol, "("] [")"] (fragments_wellNested setter operand)
  | group _ inner => wellNested_around ["("] [")"] (fragments_wellNested setter inner)
  | cast _ ty operand =>
      wellNested_around ["((", ty, ") ("] ["))"] (fragments_wellNested setter operand)
  | conditional _ condition positive negative => by
      have hcondition := wellNested_around ["("] [") ? ("] (fragments_wellNested setter condition)
      have hpositive := hcondition.append (.nest (fragments_wellNested setter positive))
      have hnegative := (hpositive.append (.text ") : (")).append
        (.nest (fragments_wellNested setter negative))
      exact hnegative.append (.text ")")
  | assign l target value context => by
      have hvalue := fragments_wellNested setter value
      cases hassignable : target.isAssignable with
      | false =>
          rw [fragments_assign hassignable]
          have htarget : WellNested (nest (target.fragments setter)) :=
            .nest (fragments_wellNested setter target)
          exact (htarget.append (.text " = ")).append (.nest hvalue)
      | true =>
          cases target with
          | identifier _ name _ =>
              exact wellNested_around [context.className, ".", setterName setter name, "("] [")"] hvalue
          | property _ owner name =>
              have howner := owner_wellNested owner.isAssignable (fragments_wellNested setter owner)
              have hsetter := howner.append (.texts [".", setterName setter name, "("])
              exact (hsetter.append (.nest hvalue)).append (.text ")")
          | _ => cases hassignable

/-- **All receivers get the same text.**  Whatever fragments are written to a new draft, balanced or
not, it gives their texts in the order in which they came.  The fragments of an expression's code are
balanced, and leave no part of the draft open.  So the code that a draft gives, the code that is
appended to a string, and the recorded texts of the code are the same. -/
theorem receivers_agree :
    (∀ fs : List Fragment,
      (({} : CodeDraft).writeAll fs).finish = String.join (fs.filterMap text?)) ∧
    ∀ (setter : String) (e : Expr ι),
      WellNested (e.fragments setter) ∧
      (({} : CodeDraft).writeAll (e.fragments setter)).opened = [] ∧
      e.code setter = e.plainCode setter ∧
      e.plainCode setter = String.join ((e.fragments setter).filterMap text?) := by
  refine ⟨fun fs => ?_, fun setter e => ?_⟩
  · rw [CodeDraft.finish_writeAll, plain_eq_join]
  · have hnested := fragments_wellNested setter e
    have hopened := CodeDraft.opened_writeAll (d := {}) _ (hnested.depth?_eq 0)
    exact ⟨hnested, List.eq_nil_of_length_eq_zero hopened, e.code_eq_plain setter,
      plain_eq_join _⟩

end Expr

end DataBinding
