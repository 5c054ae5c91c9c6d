import DataBinding.Proofs.Expr.Bare
import Mathlib.Data.List.Basic

/-!
# Proofs — Expressions — keys are a prefix-free code

A structural key is read from the left: the letters up to the first `:` or `(` are the tag, a leaf
states the length of its text before the text, and every other part ends at its delimiter or is a
key itself.  So a key tells where it ends, whatever texts and names stand in it, provided that no
name contains the character that ends it (`Layer.Delimited`).

* `key_append_inj`: two keys with anything behind them are equal only if the expressions are the
  same when bare, and the same stands behind.
* `key_prefix_free`: no key is the beginning of the key of another expression.
* `bare_eq_of_key_assign`: the class of an assignment stands last, so an assignment is told apart
  whatever its class is called.
-/

namespace DataBinding

variable {ι κ : Type}

/-! ### Parts that tell where they end -/

namespace Key

/-- A part that does not contain the character behind it ends where that character first stands. -/
theorem append_stop_inj {c : Char} {r s : List Char} :
    ∀ {a b : List Char}, c ∉ a → c ∉ b → a ++ c :: r = b ++ c :: s → a = b ∧ r = s
  | [], [], _, _, h => ⟨rfl, List.tail_eq_of_cons_eq h⟩
  | [], _ :: _, _, hb, h => absurd (List.head_eq_of_cons_eq h) fun e => hb (e ▸ List.mem_cons_self)
  | _ :: _, [], ha, _, h => absurd (List.head_eq_of_cons_eq h) fun e => ha (e ▸ List.mem_cons_self)
  | x :: a, y :: b, ha, hb, h => by
      obtain ⟨rfl, htail⟩ := List.cons.inj h
      obtain ⟨rfl, hr⟩ := append_stop_inj (List.not_mem_of_not_mem_cons ha)
        (List.not_mem_of_not_mem_cons hb) htail
      exact ⟨rfl, hr⟩

/-- A part that does not contain the character before it begins where that character last stands. -/
theorem append_last_inj {c : Char} {a b r s : List Char} (hr : c ∉ r) (hs : c ∉ s)
    (h : a ++ c :: r = b ++ c :: s) : a = b ∧ r = s := by
  have hrev : r.reverse ++ c :: a.reverse = s.reverse ++ c :: b.reverse := by
    simpa using congrArg List.reverse h
  obtain ⟨hrest, hpart⟩ := append_stop_inj (by simpa using hr) (by simpa using hs) hrev
  exact ⟨List.reverse_injective hpart, List.reverse_injective hrest⟩

/-- A text ends after as many bytes as it has. -/
theorem append_sized_inj {a b : String} {r s : List Char} (hsize : a.utf8ByteSize = b.utf8ByteSize)
    (h : a.toList ++ r = b.toList ++ s) : a = b ∧ r = s := by
  have happ : a ++ String.ofList r = b ++ String.ofList s := by
    apply String.toList_injective
    simpa using h
  have hbytes := congrArg String.toByteArray happ
  rw [String.toByteArray_append, String.toByteArray_append] at hbytes
  obtain rfl : a = b := String.toByteArray_inj.mp (ByteArray.append_inj_left hbytes hsize)
  exact ⟨rfl, List.append_cancel_left h⟩

theorem colon_not_mem_toDigits (n : Nat) : ':' ∉ Nat.toDigits 10 n := fun h =>
  absurd (Nat.isDigit_of_mem_toDigits (by decide) (by decide) h) (by decide)

theorem toDigits_inj {m n : Nat} (h : Nat.toDigits 10 m = Nat.toDigits 10 n) : m = n := by
  rw [← Nat.ofDigitChars_ten_toDigits (n := m), h, Nat.ofDigitChars_ten_toDigits]

theorem leaf_eq (tag text : String) :
    leaf tag text = tag ++ ":" ++ Nat.repr text.utf8ByteSize ++ ":" ++ text := rfl

theorem toList_leaf (tag text : String) :
    (leaf tag text).toList =
      tag.toList ++ ':' :: (Nat.toDigits 10 text.utf8ByteSize ++ ':' :: text.toList) := by
  simp [leaf_eq]

theorem toList_join (tag : String) (parts : List String) :
    (join tag parts).toList =
      tag.toList ++ '(' :: (['~'].intercalate (parts.map String.toList) ++ [')']) := by
  simp [join, separator]

/-- The length and the text of a leaf, with anything behind. -/
theorem append_leaf_inj {a b : String} {r s : List Char}
    (h : Nat.toDigits 10 a.utf8ByteSize ++ ':' :: (a.toList ++ r) =
      Nat.toDigits 10 b.utf8ByteSize ++ ':' :: (b.toList ++ s)) : a = b ∧ r = s := by
  obtain ⟨hdigits, hrest⟩ :=
    append_stop_inj (colon_not_mem_toDigits _) (colon_not_mem_toDigits _) h
  exact append_sized_inj (toDigits_inj hdigits) hrest

end Key

theorem BinaryOp.symbol_append_inj {o p : BinaryOp} {r s : List Char}
    (h : o.symbol.toList ++ r = p.symbol.toList ++ s) : o = p ∧ r = s := by
  cases o <;> cases p <;> simp [symbol] at h ⊢ <;> exact h

theorem UnaryOp.symbol_append_inj {o p : UnaryOp} {r s : List Char}
    (h : o.symbol.toList ++ r = p.symbol.toList ++ s) : o = p ∧ r = s := by
  cases o <;> cases p <;> simp [symbol] at h ⊢ <;> exact h

/-! ### Delimited names -/

/-- No name of the node contains the character that ends it in a key. -/
def Layer.Delimited {α : Type} : Layer α → Prop
  | .literal _ ty => ':' ∉ ty.toList
  | .cast ty _ => '~' ∉ ty.toList
  | .property _ name => ')' ∉ name.toList
  | .assign _ _ context => ')' ∉ context.className.toList
  | .identifier _ _ | .binary _ _ _ | .unary _ _ | .group _ | .conditional _ _ _ => True

instance Layer.decidableDelimited {α : Type} : (layer : Layer α) → Decidable layer.Delimited
  | .literal _ ty => inferInstanceAs (Decidable (':' ∉ ty.toList))
  | .cast ty _ => inferInstanceAs (Decidable ('~' ∉ ty.toList))
  | .property _ name => inferInstanceAs (Decidable (')' ∉ name.toList))
  | .assign _ _ context => inferInstanceAs (Decidable (')' ∉ context.className.toList))
  | .identifier _ _ | .binary _ _ _ | .unary _ _ | .group _ | .conditional _ _ _ =>
    inferInstanceAs (Decidable True)

theorem Layer.delimited_map {α β : Type} {f : α → β} (layer : Layer α) :
    (layer.map f).Delimited ↔ layer.Delimited := by
  cases layer <;> exact Iff.rfl

/-! ### Tags -/

namespace Layer

theorem tag_map {α β : Type} (f : α → β) (layer : Layer α) : (layer.map f).tag = layer.tag := by
  cases layer <;> rfl

/-- The tag is what stands before the first colon or parenthesis. -/
theorem takeWhile_key (layer : Layer String) (r : List Char) :
    (layer.key.toList ++ r).takeWhile (· ∉ [':', '(']) = layer.tag.toList := by
  cases layer <;> simp [key, Key.leaf_eq, Key.join, tag, List.takeWhile, toString]

theorem tag_eq_of_key_append {a b : Layer String} {r s : List Char}
    (h : a.key.toList ++ r = b.key.toList ++ s) : a.tag = b.tag := by
  apply String.toList_injective
  rw [← takeWhile_key a r, h, takeWhile_key b s]

end Layer

namespace Expr

/-- No name in the expression contains the character that ends it in a key.  Literal texts and the
names of identifiers are free. -/
abbrev Delimited (e : Expr ι) : Prop := e.Every Layer.Delimited

/-! ### Keys with anything behind them -/

/-- The key is that of the outermost node over the keys of the subexpressions. -/
theorem key_eq (e : Expr ι) : e.key = (e.layer.map key).key := by
  cases e <;> rfl

theorem tag_eq_of_key_append {a : Expr ι} {b : Expr κ} {r s : List Char}
    (h : a.key.toList ++ r = b.key.toList ++ s) : a.layer.tag = b.layer.tag := by
  rw [key_eq a, key_eq b] at h
  rw [← Layer.tag_map key a.layer, ← Layer.tag_map key b.layer]
  exact Layer.tag_eq_of_key_append h

/-- **Keys end themselves.**  If two keys with anything behind them are equal, the expressions are
the same when bare, and the same stands behind. -/
theorem key_append_inj {a : Expr ι} {b : Expr κ} {r s : List Char} (ha : a.Delimited)
    (hb : b.Delimited) (h : a.key.toList ++ r = b.key.toList ++ s) :
    a.bare = b.bare ∧ r = s := by
  -- Each part of a key is read off with the whole rest of both keys behind it, so the rests have to
  -- vary in the induction.  Shapes with different tags part at the first character.
  induction a generalizing b r s with
  | literal l text ty =>
      cases b with
      | literal l' text' ty' =>
          have hparts : ty.toList ++ ':' :: (Nat.toDigits 10 text.utf8ByteSize ++
                ':' :: (text.toList ++ r)) =
              ty'.toList ++ ':' :: (Nat.toDigits 10 text'.utf8ByteSize ++
                ':' :: (text'.toList ++ s)) := by
            simpa [key, Layer.key, Layer.tag, Key.toList_leaf, toString] using h
          obtain ⟨hty, hrest⟩ := Key.append_stop_inj ha hb hparts
          obtain ⟨rfl, hr⟩ := Key.append_leaf_inj hrest
          rw [String.toList_injective hty]
          exact ⟨rfl, hr⟩
      | _ => exact absurd (tag_eq_of_key_append h) (by simp [layer, Layer.tag])
  | identifier l name ty =>
      cases b with
      | identifier l' name' ty' =>
          have hparts : Nat.toDigits 10 name.utf8ByteSize ++ ':' :: (name.toList ++ r) =
              Nat.toDigits 10 name'.utf8ByteSize ++ ':' :: (name'.toList ++ s) := by
            simpa [key, Layer.key, Layer.tag, Key.toList_leaf] using h
          obtain ⟨rfl, hr⟩ := Key.append_leaf_inj hparts
          exact ⟨rfl, hr⟩
      | _ => exact absurd (tag_eq_of_key_append h) (by simp [layer, Layer.tag])
  | property l target name ih =>
      cases b with
      | property l' target' name' =>
          have hparts : target.key.toList ++ '~' :: (name.toList ++ ')' :: r) =
              target'.key.toList ++ '~' :: (name'.toList ++ ')' :: s) := by
            simpa [key, Layer.key, Layer.tag, Key.toList_join] using h
          obtain ⟨htarget, hrest⟩ := ih ha.2 hb.2 hparts
          obtain ⟨hname, hr⟩ := Key.append_stop_inj ha.1 hb.1 (List.cons.inj hrest).2
          rw [bare, bare, htarget, String.toList_injective hname]
          exact ⟨rfl, hr⟩
      | _ => exact absurd (tag_eq_of_key_append h) (by simp [layer, Layer.tag])
  | binary l left op right ihl ihr =>
      cases b with
      | binary l' left' op' right' =>
          have hparts : left.key.toList ++ '~' :: (op.symbol.toList ++
                '~' :: (right.key.toList ++ ')' :: r)) =
              left'.key.toList ++ '~' :: (op'.symbol.toList ++
                '~' :: (right'.key.toList ++ ')' :: s)) := by
            simpa [key, Layer.key, Layer.tag, Key.toList_join] using h
          obtain ⟨hleft, h₁⟩ := ihl ha.2.1 hb.2.1 hparts
          obtain ⟨rfl, h₂⟩ := BinaryOp.symbol_append_inj (List.cons.inj h₁).2
          obtain ⟨hright, h₃⟩ := ihr ha.2.2 hb.2.2 (List.cons.inj h₂).2
          rw [bare, bare, hleft, hright]
          exact ⟨rfl, (List.cons.inj h₃).2⟩
      | _ => exact absurd (tag_eq_of_key_append h) (by simp [layer, Layer.tag])
  | unary l op operand ih =>
      cases b with
      | unary l' op' operand' =>
          have hparts : op.symbol.toList ++ '~' :: (operand.key.toList ++ ')' :: r) =
              op'.symbol.toList ++ '~' :: (operand'.key.toList ++ ')' :: s) := by
            simpa [key, Layer.key, Layer.tag, Key.toList_join] using h
          obtain ⟨rfl, h₁⟩ := UnaryOp.symbol_append_inj hparts
          obtain ⟨hoperand, h₂⟩ := ih ha.2 hb.2 (List.cons.inj h₁).2
          rw [bare, bare, hoperand]
          exact ⟨rfl, (List.cons.inj h₂).2⟩
      | _ => exact absurd (tag_eq_of_key_append h) (by simp [layer, Layer.tag])
  | group l inner ih =>
      cases b with
      | group l' inner' =>
          have hparts : inner.key.toList ++ ')' :: r = inner'.key.toList ++ ')' :: s := by
            simpa [key, Layer.key, Layer.tag, Key.toList_join] using h
          obtain ⟨hinner, hrest⟩ := ih ha.2 hb.2 hparts
          rw [bare, bare, hinner]
          exact ⟨rfl, (List.cons.inj hrest).2⟩
      | _ => exact absurd (tag_eq_of_key_append h) (by simp [layer, Layer.tag])
  | cast l ty operand ih =>
      cases b with
      | cast l' ty' operand' =>
          have hparts : ty.toList ++ '~' :: (operand.key.toList ++ ')' :: r) =
              ty'.toList ++ '~' :: (operand'.key.toList ++ ')' :: s) := by
            simpa [key, Layer.key, Layer.tag, Key.toList_join] using h
          obtain ⟨hty, h₁⟩ := Key.append_stop_inj ha.1 hb.1 hparts
          obtain ⟨hoperand, h₂⟩ := ih ha.2 hb.2 h₁
          rw [bare, bare, hoperand, String.toList_injective hty]
          exact ⟨rfl, (List.cons.inj h₂).2⟩
      | _ => exact absurd (tag_eq_of_key_append h) (by simp [layer, Layer.tag])
  | conditional l condition positive negative ihc ihp ihn =>
      cases b with
      | conditional l' condition' positive' negative' =>
          have hparts : condition.key.toList ++ '~' :: (positive.key.toList ++
                '~' :: (negative.key.toList ++ ')' :: r)) =
              condition'.key.toList ++ '~' :: (positive'.key.toList ++
                '~' :: (negative'.key.toList ++ ')' :: s)) := by
            simpa [key, Layer.key, Layer.tag, Key.toList_join] using h
          obtain ⟨hcondition, h₁⟩ := ihc ha.2.1 hb.2.1 hparts
          obtain ⟨hpositive, h₂⟩ := ihp ha.2.2.1 hb.2.2.1 (List.cons.inj h₁).2
          obtain ⟨hnegative, h₃⟩ := ihn ha.2.2.2 hb.2.2.2 (List.cons.inj h₂).2
          rw [bare, bare, hcondition, hpositive, hnegative]
          exact ⟨rfl, (List.cons.inj h₃).2⟩
      | _ => exact absurd (tag_eq_of_key_append h) (by simp [layer, Layer.tag])
  | assign l target value context iht ihv =>
      cases b with
      | assign l' target' value' context' =>
          have hparts : target.key.toList ++ '~' :: (value.key.toList ++
                '~' :: (context.className.toList ++ ')' :: r)) =
              target'.key.toList ++ '~' :: (value'.key.toList ++
                '~' :: (context'.className.toList ++ ')' :: s)) := by
            simpa [key, Layer.key, Layer.tag, Key.toList_join] using h
          obtain ⟨htarget, h₁⟩ := iht ha.2.1 hb.2.1 hparts
          obtain ⟨hvalue, h₂⟩ := ihv ha.2.2 hb.2.2 (List.cons.inj h₁).2
          obtain ⟨hclass, hr⟩ := Key.append_stop_inj ha.1 hb.1 (List.cons.inj h₂).2
          have hcontext : context = context' := congrArg Context.mk (String.toList_injective hclass)
          rw [bare, bare, htarget, hvalue, hcontext]
          exact ⟨rfl, hr⟩
      | _ => exact absurd (tag_eq_of_key_append h) (by simp [layer, Layer.tag])

/-- Equal keys belong to expressions that are the same when bare, and only to those. -/
theorem key_eq_iff_bare {a : Expr ι} {b : Expr κ} (ha : a.Delimited) (hb : b.Delimited) :
    a.key = b.key ↔ a.bare = b.bare := by
  refine ⟨fun h => ?_, key_eq_of_bare⟩
  have happ : a.key.toList ++ [] = b.key.toList ++ [] := by rw [h]
  exact (key_append_inj ha hb happ).1

/-- An assignment with the key of a delimited expression is that expression, whatever its class is
called: the class stands last. -/
theorem bare_eq_of_key_assign {a : Expr ι} {l : κ} {target value : Expr κ} {context : Context}
    (ha : a.Delimited) (ht : target.Delimited) (hv : value.Delimited)
    (h : a.key = (assign l target value context).key) :
    a.bare = (assign l target value context).bare := by
  have happ : a.key.toList ++ [] = (assign l target value context).key.toList ++ [] := by rw [h]
  cases a with
  | assign l' target' value' context' =>
      have hparts : target'.key.toList ++ '~' :: (value'.key.toList ++
            '~' :: (context'.className.toList ++ [')'])) =
          target.key.toList ++ '~' :: (value.key.toList ++
            '~' :: (context.className.toList ++ [')'])) := by
        simpa [key, Layer.key, Layer.tag, Key.toList_join] using happ
      obtain ⟨htarget, h₁⟩ := key_append_inj ha.2.1 ht hparts
      obtain ⟨hvalue, h₂⟩ := key_append_inj ha.2.2 hv (List.cons.inj h₁).2
      have hclass := List.append_cancel_right (List.cons.inj h₂).2
      have hcontext : context' = context := congrArg Context.mk (String.toList_injective hclass)
      rw [bare, bare, htarget, hvalue, hcontext]
  | _ => exact absurd (tag_eq_of_key_append happ) (by simp [layer, Layer.tag])

/-- **Keys are a prefix-free code.**  If the key of one delimited expression is the beginning of the
key of another, the two are the same up to the declared types of their identifiers; so equal keys
belong to the same expression, and only to it. -/
theorem key_prefix_free {a : Expr ι} {b : Expr κ} (ha : a.Delimited) (hb : b.Delimited) :
    (∀ rest, a.key ++ rest = b.key → a.bare = b.bare) ∧ (a.key = b.key ↔ a.bare = b.bare) := by
  refine ⟨fun rest h => ?_, key_eq_iff_bare ha hb⟩
  have happ : a.key.toList ++ rest.toList = b.key.toList ++ [] := by
    rw [← String.toList_append, h, List.append_nil]
  exact (key_append_inj ha hb happ).1

/-- Texts and names may hold every character that keys are made with. -/
theorem key_prefix_free_punctuation :
    ∃ a b : Expr Unit,
      a = .binary () (.literal () "1~:2)" "int") .sub
        (.property () (.unary () .bitNot (.identifier () "a(~:)" "User")) "b~c") ∧
      b = .binary () (.literal () "1~:2)" "int") .sub
        (.property () (.unary () .bitNot (.identifier () "a(~:)" "Admin")) "b~c") ∧
      a.key ++ "" = b.key ∧ a.bare = b.bare := by
  refine ⟨_, _, rfl, rfl, by decide +kernel, ?_⟩
  exact (key_prefix_free (by decide) (by decide)).1 "" (by decide +kernel)

end Expr

end DataBinding
