import DataBinding.Proofs.Inverse.Trail
import Mathlib.Algebra.Field.Rat
import Mathlib.Logic.Function.Basic

/-!
# Proofs — Inversion — exact numbers

Over exact numbers the rules of rearrangement are those of algebra.  `Expr.rational?` is the value of
an expression over rational numbers: literals stand for the numbers they write, the four operations
and the negation are those of the field, and a division by zero and all else has no value.

Each step down undoes the node above (`Undoes`): what it gives for `t` is the only number at which
the node is `t`.  Steps that undo each other compose (`Undoes.comp`), so the whole way does.

* `Rearrangement.undoes`: the table of rules.
* `Linear.undoes`: the way to the leaf.
* `solve_linear`: the assignment writes the only solution.
-/

namespace DataBinding

variable {ι : Type}

/-! ### Exact values -/

namespace Numeral

/-- The number that a decimal with an optional sign, an optional point and an optional power of ten
denotes. -/
def rational? (text : List Char) : Option ℚ :=
  let (negative, rest) := sign text
  let (whole, afterWhole) := leadingDigits rest
  let (part, afterPart) := fraction afterWhole
  if whole = [] ∧ part = [] then none
  else (powerOfTen? afterPart).map fun (e : Int) =>
    let exponent := e - part.length
    let magnitude := Rat.ofScientific (value (whole ++ part)) (decide (exponent < 0)) exponent.natAbs
    if negative then -magnitude else magnitude

end Numeral

/-- The number that a literal of a numeric type denotes. -/
def Literal.rational? (text ty : String) : Option ℚ :=
  match Form.ofType? ty with
  | some .integer => (Numeral.int? (trimEnd ['l', 'L'] text.toList)).map fun n => (n : ℚ)
  | some .floating => Numeral.rational? (trimEnd ['f', 'F', 'd', 'D'] text.toList)
  | some .truth | some .quoted | none => none

/-- The operator on numbers. -/
def BinaryOp.rational? (op : BinaryOp) (x y : ℚ) : Option ℚ :=
  match op with
  | add => some (x + y)
  | sub => some (x - y)
  | mul => some (x * y)
  | div => if y = 0 then none else some (x / y)
  | rem => none

namespace Expr

/-- The value of an expression over rational numbers, where paths have the given values. -/
def rational? (ρ : String → Option ℚ) : Expr ι → Option ℚ
  | literal _ text ty => Literal.rational? text ty
  | identifier _ name _ => ρ name
  | property l target name => (property l target name).path?.bind ρ
  | binary _ left op right => do op.rational? (← left.rational? ρ) (← right.rational? ρ)
  | unary _ .neg operand => (operand.rational? ρ).map (- ·)
  | group _ inner => inner.rational? ρ
  | unary _ .not _ | unary _ .bitNot _ | cast _ _ _ | conditional _ _ _ _ | assign _ _ _ _ => none

variable {ρ ρ' : String → Option ℚ}

theorem rational?_bare (e : Expr ι) : e.bare.rational? ρ = e.rational? ρ := by
  induction e with
  | literal | identifier | cast | conditional | assign => rfl
  | property => simp only [bare, rational?, path?, path?_bare]
  | binary _ _ _ _ ih₁ ih₂ => simp only [bare, rational?, ih₁, ih₂]
  | unary _ op _ ih => cases op <;> simp only [bare, rational?, ih]
  | group _ _ ih => simp only [bare, rational?, ih]

theorem rational?_of_path {e : Expr ι} {p : String} (h : e.path? = some p) :
    e.rational? ρ = ρ p := by
  cases e with
  | identifier l name ty =>
      cases h
      rfl
  | property l target name => rw [rational?, h, Option.bind_some]
  | _ => cases h

/-- An operator with the value of one operand takes that of the other. -/
theorem rational?_binary_split {l : ι} {left right : Expr ι} {op : BinaryOp} (side : Side)
    {c : ℚ} (hc : (side.split left right).2.rational? ρ = some c) :
    (binary l left op right).rational? ρ =
      (side.split left right).1.rational? ρ >>= fun x =>
        op.rational? (side.split x c).1 (side.split x c).2 := by
  cases side with
  | left =>
      change right.rational? ρ = _ at hc
      rw [rational?, hc]
      rfl
  | right =>
      change left.rational? ρ = _ at hc
      rw [rational?, hc]
      rfl

/-- An operator with an operand that has no value has none. -/
theorem rational?_binary_none {l : ι} {left right : Expr ι} {op : BinaryOp} (side : Side)
    (hc : (side.split left right).2.rational? ρ = none) :
    (binary l left op right).rational? ρ = none := by
  cases side with
  | left =>
      change right.rational? ρ = _ at hc
      rw [rational?, hc]
      cases left.rational? ρ <;> rfl
  | right =>
      change left.rational? ρ = _ at hc
      rw [rational?, hc]
      rfl

end Expr

/-- What cannot change has one value over rational numbers, if it has any. -/
theorem Model.Sound.rational?_constant {m : Model} {n : Node} (hm : m.Sound) (hn : m.Holds n)
    (hconst : n.label.dynamic = false) (ρ ρ' : String → Option ℚ) :
    n.rational? ρ = n.rational? ρ' := by
  induction n using Expr.children_induction with
  | step n ih =>
      have part {c : Node} (hc : c ∈ n.children) :=
        ih c hc (hm.child hn hc) (hm.constant_child hn hc hconst)
      cases n with
      | literal | cast | conditional | assign => rfl
      | identifier => cases (hm.dynamic hn).symm.trans hconst
      | property =>
          rw [Expr.rational?, Expr.rational?, (hm.eval_constant hn hconst).1]
          rfl
      | binary l left op right =>
          rw [Expr.rational?, Expr.rational?, part List.mem_cons_self,
            part (List.mem_cons_of_mem _ List.mem_cons_self)]
      | unary l op operand =>
          cases op with
          | neg => rw [Expr.rational?, Expr.rational?, part (List.mem_singleton_self operand)]
          | not | bitNot => rfl
      | group l inner => rw [Expr.rational?, Expr.rational?, part (List.mem_singleton_self inner)]

/-! ### Undoing -/

/-- What `down` gives for `t` is the only number at which `up` is `t`, if `up` has a value there; and
`down` gives it, if `up` is `t` somewhere and another number elsewhere. -/
structure Undoes (down up : ℚ → Option ℚ) : Prop where
  back : ∀ {t y t'}, down t = some y → up y = some t' → t' = t
  unique : ∀ {t y t' u}, down t = some y → up y = some t' → up u = some t → u = y
  solved : ∀ {t u t' u'}, up u = some t → up u' = some t' → t' ≠ t → down t = some u

namespace Undoes

/-- What has a value everywhere is undone by its inverse. -/
theorem of_inverse {f g : ℚ → ℚ} (hfg : ∀ t, f (g t) = t) (hgf : ∀ x, g (f x) = x) :
    Undoes (fun t => some (g t)) (fun x => some (f x)) where
  back {t y t'} hdown hup := by
    cases hdown
    exact (Option.some.inj hup).symm.trans (hfg t)
  unique {t y t' u} hdown _ hu := by
    cases hdown
    cases hu
    exact (hgf u).symm
  solved {t u t' u'} hu _ _ := by
    cases hu
    exact congrArg some (hgf u)

/-- What has no value anywhere needs no undoing. -/
theorem of_none (down : ℚ → Option ℚ) : Undoes down fun _ => none where
  back _ hup := by cases hup
  unique _ hup := by cases hup
  solved hu := by cases hu

/-- A product with zero is not undone: it is the same everywhere. -/
theorem mul (c : ℚ) : Undoes (fun t => BinaryOp.div.rational? t c) (fun x => some (x * c)) := by
  by_cases hc : c = 0
  · subst hc
    refine ⟨fun hdown => ?_, fun hdown => ?_, fun hu hu' hne => ?_⟩
    · simp [BinaryOp.rational?] at hdown
    · simp [BinaryOp.rational?] at hdown
    · simp only [mul_zero, Option.some.injEq] at hu hu'
      exact absurd (hu'.symm.trans hu) hne
  · simp only [BinaryOp.rational?, if_neg hc]
    exact of_inverse (fun t => div_mul_cancel₀ t hc) (fun x => mul_div_cancel_right₀ x hc)

theorem div_left (c : ℚ) : Undoes (fun t => some (t * c)) (fun x => BinaryOp.div.rational? x c) := by
  by_cases hc : c = 0
  · simp only [BinaryOp.rational?, if_pos hc]
    exact of_none _
  · simp only [BinaryOp.rational?, if_neg hc]
    exact of_inverse (fun t => mul_div_cancel_right₀ t hc) (fun x => div_mul_cancel₀ x hc)

theorem div_eq_some {x y z : ℚ} (h : BinaryOp.div.rational? x y = some z) : y ≠ 0 ∧ z * y = x := by
  rw [BinaryOp.rational?] at h
  split at h
  · cases h
  · cases h
    exact ⟨‹_›, div_mul_cancel₀ x ‹_›⟩

/-- A quotient of a constant is undone by the quotient of the same constant, but where the constant is
zero. -/
theorem div_right (c : ℚ) : Undoes (BinaryOp.div.rational? c) (BinaryOp.div.rational? c) where
  back {t y t'} hdown hup := by
    obtain ⟨-, hy⟩ := div_eq_some hdown
    obtain ⟨hy0, ht'⟩ := div_eq_some hup
    exact mul_right_cancel₀ hy0 (ht'.trans (hy.symm.trans (mul_comm y t)))
  unique {t y t' u} hdown _ hu := by
    obtain ⟨ht0, hy⟩ := div_eq_some hdown
    obtain ⟨-, hu⟩ := div_eq_some hu
    exact mul_left_cancel₀ ht0 (hu.trans (hy.symm.trans (mul_comm y t)))
  solved {t u t' u'} hu hu' hne := by
    obtain ⟨-, hu⟩ := div_eq_some hu
    obtain ⟨hu0', hu'⟩ := div_eq_some hu'
    have ht0 : t ≠ 0 := by
      rintro rfl
      rw [zero_mul] at hu
      exact hne ((mul_eq_zero.mp (hu'.trans hu.symm)).resolve_right hu0')
    rw [BinaryOp.rational?, if_neg ht0, ← hu, mul_div_cancel_left₀ u ht0]

/-- **Steps that undo compose.** -/
theorem comp {down up down' up' : ℚ → Option ℚ} (h : Undoes down up) (h' : Undoes down' up') :
    Undoes (fun t => down t >>= down') (fun x => up' x >>= up) where
  back {t w t'} hdown hup := by
    obtain ⟨y, hy, hw⟩ := Option.bind_eq_some_iff.mp hdown
    obtain ⟨z, hz, hup⟩ := Option.bind_eq_some_iff.mp hup
    obtain rfl := h'.back hw hz
    exact h.back hy hup
  unique {t w t' u} hdown hup hu := by
    obtain ⟨y, hy, hw⟩ := Option.bind_eq_some_iff.mp hdown
    obtain ⟨z, hz, hup⟩ := Option.bind_eq_some_iff.mp hup
    obtain ⟨y', hy', hu⟩ := Option.bind_eq_some_iff.mp hu
    obtain rfl := h'.back hw hz
    obtain rfl := h.unique hy hup hu
    exact h'.unique hw hz hy'
  solved {t u t' u'} hu hu' hne := by
    obtain ⟨y, hy, hu⟩ := Option.bind_eq_some_iff.mp hu
    obtain ⟨y', hy', hu'⟩ := Option.bind_eq_some_iff.mp hu'
    have hne' : y' ≠ y := by
      rintro rfl
      exact hne (Option.some.inj (hu'.symm.trans hu))
    exact Option.bind_eq_some_iff.mpr ⟨y, h.solved hu hu' hne, h'.solved hy hy' hne'⟩

end Undoes

/-- The value of the rearranged equation. -/
def Rearrangement.rational? (r : Rearrangement) (value constant : ℚ) : Option ℚ :=
  if r.valueFirst then r.op.rational? value constant else r.op.rational? constant value

/-- **The table of rules is that of algebra.** -/
theorem Rearrangement.undoes {op : BinaryOp} {side : Side} {r : Rearrangement}
    (h : Rearrangement.of? op side = some r) (c : ℚ) :
    Undoes (fun t => r.rational? t c)
      (fun x => op.rational? (side.split x c).1 (side.split x c).2) := by
  cases op with
  | add =>
      cases h
      cases side with
      | left => exact .of_inverse (fun t => sub_add_cancel t c) (fun x => add_sub_cancel_right x c)
      | right => exact .of_inverse (fun t => add_sub_cancel c t) (fun x => add_sub_cancel_left c x)
  | sub =>
      cases side <;> cases h
      · exact .of_inverse (fun t => add_sub_cancel_right t c) (fun x => sub_add_cancel x c)
      · exact .of_inverse (fun t => sub_sub_cancel c t) (fun x => sub_sub_cancel c x)
  | mul =>
      cases h
      cases side with
      | left => exact .mul c
      | right =>
          simp only [Side.split, BinaryOp.rational?, mul_comm c]
          exact .mul c
  | div =>
      cases side <;> cases h
      · exact .div_left c
      · exact .div_right c
  | rem => cases h

theorem Rearrangement.rational?_layer {r : Rearrangement} {e k : Expr Unit} {c : ℚ}
    {ρ : String → Option ℚ} (hk : k.rational? ρ = some c) :
    ((r.layer e k).expr ()).rational? ρ = e.rational? ρ >>= fun t => r.rational? t c := by
  obtain ⟨op, valueFirst⟩ := r
  cases valueFirst with
  | true => exact Expr.rational?_binary_split .left hk
  | false => exact Expr.rational?_binary_split .right hk

theorem Rearrangement.rational?_layer_none {r : Rearrangement} {e k : Expr Unit}
    {ρ : String → Option ℚ} (hk : k.rational? ρ = none) :
    ((r.layer e k).expr ()).rational? ρ = none := by
  obtain ⟨op, valueFirst⟩ := r
  cases valueFirst with
  | true => exact Expr.rational?_binary_none .left hk
  | false => exact Expr.rational?_binary_none .right hk

namespace Inverse

variable {R : Resolver} {limit : Nat} {context : Context} {s : Model} {node leaf a : Node}
  {types : TypeCache} {ds : List Descent} {p : String}

/-! ### The way to the leaf -/

/-- The way down from a node to the end of the given path is made of operators, negations and
groups. -/
inductive Linear : Node → String → Prop where
  | leaf {leaf : Node} {p : String} (h : leaf.path? = some p) : Linear leaf p
  | binary (l : NodeLabel) {left right : Node} (op : BinaryOp) {side : Side} {p : String}
      (hside : Side.of? left.label.dynamic right.label.dynamic = some side)
      (h : Linear (side.split left right).1 p) : Linear (.binary l left op right) p
  | neg (l : NodeLabel) {operand : Node} {p : String} (h : Linear operand p) :
      Linear (.unary l .neg operand) p
  | group (l : NodeLabel) {inner : Node} {p : String} (h : Linear inner p) :
      Linear (.group l inner) p

/-- No cast stands on the way. -/
theorem Linear.cast_not_mem (h : Linear node p) (htrail : Trail R types node ds leaf) :
    ∀ ty part, Descent.cast ty part ∉ ds := by
  induction htrail with
  | arrive => exact fun _ _ => List.not_mem_nil
  | down hopens hpart _ ih =>
      intro ty part hmem
      cases h with
      | leaf h =>
          rw [hopens.part?_of_path h] at hpart
          cases hpart
      | binary l op hside h =>
          cases hopens with
          | binary _ _ _ hside' =>
              cases hside.symm.trans hside'
              cases hpart
              exact ih h ty part ((List.mem_cons.mp hmem).resolve_left nofun)
      | neg l h | group l h =>
          cases hopens
          cases hpart
          exact ih h ty part ((List.mem_cons.mp hmem).resolve_left nofun)

/-- **What is required undoes the way to the leaf.** -/
theorem Linear.undoes (h : Linear node p) (htrail : Trail R types node ds leaf) (hs : s.Sound)
    (hn : s.Holds node) (ρ ρ' : String → Option ℚ) :
    ∃ down, (∀ e : Expr Unit,
        (Descent.requiredAlong ds e).rational? ρ' = e.rational? ρ' >>= down) ∧
      Undoes down fun x => node.rational? (Function.update ρ p (some x)) := by
  induction htrail with
  | arrive hopens =>
      cases h with
      | leaf h =>
          refine ⟨some, fun e => (bind_pure _).symm, ?_⟩
          simp only [Expr.rational?_of_path h, Function.update_self]
          exact .of_inverse (fun _ => rfl) (fun _ => rfl)
      | binary | neg | group => cases hopens
  | @down node part leaf d ds hopens hpart _ ih =>
      have hpartHeld := hs.child hn (hopens.part_mem hpart)
      -- the steps below undo the part, so it is left to undo one node over its part
      have step {up₁ down₁ : ℚ → Option ℚ} (hpartLinear : Linear part p)
          (hup : ∀ ρ, node.rational? ρ = part.rational? ρ >>= up₁)
          (hdown : ∀ e : Expr Unit, (d.required e).rational? ρ' = e.rational? ρ' >>= down₁)
          (hundoes : Undoes down₁ up₁) :
          ∃ down, (∀ e : Expr Unit,
              (Descent.requiredAlong (d :: ds) e).rational? ρ' = e.rational? ρ' >>= down) ∧
            Undoes down fun x => node.rational? (Function.update ρ p (some x)) := by
        obtain ⟨down, hrest, hundoesRest⟩ := ih hpartLinear hpartHeld
        refine ⟨fun t => down₁ t >>= down, fun e => ?_, ?_⟩
        · rw [Descent.requiredAlong, hrest, hdown, bind_assoc]
        · simp only [hup]
          exact hundoes.comp hundoesRest
      cases h with
      | leaf h =>
          rw [hopens.part?_of_path h] at hpart
          cases hpart
      | @binary l left right op side p hside h =>
          cases hopens with
          | @binary _ _ _ _ _ side' r _ _ hside' hr =>
              obtain rfl : side = side' := Option.some.inj (hside.symm.trans hside')
              cases hpart
              have hconst := hs.rational?_constant (hs.child hn (split_mem side left right).2)
                (constant_of_side hside)
              cases hc : (side.split left right).2.rational? ρ' with
              | none =>
                  have hup : ∀ ρ, (Expr.binary l left op right).rational? ρ =
                      (side.split left right).1.rational? ρ >>= fun _ => none := fun ρ => by
                    rw [Expr.rational?_binary_none side ((hconst ρ ρ').trans hc)]
                    cases (side.split left right).1.rational? ρ <;> rfl
                  refine step h hup (fun e => ?_) (.of_none fun _ => none)
                  rw [Descent.required,
                    Rearrangement.rational?_layer_none ((Expr.rational?_bare _).trans hc)]
                  cases e.rational? ρ' <;> rfl
              | some c =>
                  refine step h (fun ρ => Expr.rational?_binary_split side ((hconst ρ ρ').trans hc))
                    (fun e => ?_) (Rearrangement.undoes hr c)
                  exact Rearrangement.rational?_layer ((Expr.rational?_bare _).trans hc)
      | neg l h =>
          cases hopens
          cases hpart
          refine step h (fun ρ => ?_) (fun e => ?_)
            (.of_inverse (fun t => neg_neg t) (fun x => neg_neg x))
          · rw [Expr.rational?, Option.map_eq_bind]
            rfl
          · rw [Descent.required, Expr.rational?, Option.map_eq_bind]
            rfl
      | group l h =>
          cases hopens
          cases hpart
          exact step h (fun ρ => (bind_pure _).symm) (fun e => (bind_pure _).symm)
            (.of_inverse (fun _ => rfl) (fun _ => rfl))

/-- **The assignment writes the only solution.**  Let a node of one model be solved for a variable `v`
of another, the names in both being delimited, along a way of operators, negations and groups to the
path `p`, and let the value of `v` be the number `t`.  If the assigned value is the number `w` and the
node has a value where `p` is `w`, then that value is `t`, and `w` is the only number for `p` at which
the node is `t`.  And where the node is `t` for some number and has another value for another, the
first is what is assigned. -/
theorem solve_linear {source dest : Model} (hsource : source.Reachable) (hdest : dest.Reachable)
    (hsd : source.Delimited) (hdd : dest.Delimited) {i value : NodeId}
    (hnode : source.node? i = some node) {l : NodeLabel} {v ty : String}
    (hvalue : dest.node? value = some (.identifier l v ty))
    (hsolve : (solve R limit context node value ⟨source.types, dest⟩).value.1 = .ok a)
    (hlinear : Linear node p) :
    ∃ l target val c, a = .assign l target val c ∧ ∀ (ρ ρ' : String → Option ℚ) (t : ℚ),
      (∀ w, val.rational? (Function.update ρ' v (some t)) = some w →
        (node.rational? (Function.update ρ p (some w))).isSome = true →
        node.rational? (Function.update ρ p (some w)) = some t ∧
          ∀ u, node.rational? (Function.update ρ p (some u)) = some t → u = w) ∧
      ∀ u u' t', node.rational? (Function.update ρ p (some u)) = some t →
        node.rational? (Function.update ρ p (some u')) = some t' → t' ≠ t →
        val.rational? (Function.update ρ' v (some t)) = some u := by
  have hs := hsource.sound
  have hn := hs.holds hnode
  obtain rfl : l.id = value := hdest.sound.place hvalue
  have hv : dest.Holds (.identifier l v ty) := hvalue
  obtain ⟨ds, htrail, hbare⟩ :=
    solve_bare (w := ⟨source.types, dest⟩) hs hsd hn hdest.sound hdd hv hsolve
  have hassign := hbare fun ty part hmem => absurd hmem (hlinear.cast_not_mem htrail ty part)
  cases a with
  | assign la target val c =>
      refine ⟨la, target, val, c, rfl, fun ρ ρ' t => ?_⟩
      obtain ⟨down, hdown, hundoes⟩ :=
        hlinear.undoes htrail hs hn ρ (Function.update ρ' v (some t))
      have hval : val.rational? (Function.update ρ' v (some t)) = down t := by
        rw [← Expr.rational?_bare, (Expr.assign.inj hassign).2.2.1, hdown, Expr.bare,
          Expr.rational?, Function.update_self]
        rfl
      rw [hval]
      refine ⟨fun w hw hdefined => ?_, fun u u' t' hu hu' hne => hundoes.solved hu hu' hne⟩
      obtain ⟨t', ht'⟩ := Option.isSome_iff_exists.mp hdefined
      obtain rfl := hundoes.back hw ht'
      exact ⟨ht', fun u hu => hundoes.unique hw ht' hu⟩
  | _ => cases hassign

/-- Solving `-(3 - (0.5 / x)) = v` at 1, which the expression is at 1/8 only. -/
theorem solve_linear_eighth :
    ∃ source dest node,
      source = Model.build [.identifier "x" "double", .literal "0.5" "double", .binary 1 .div 0,
        .literal "3" "int", .binary 3 .sub 2, .unary .neg 4] ∧
      dest = Model.build [.identifier "v" "double"] ∧ source.node? 5 = some node ∧
      ∃ a, (solve TypeTable.standard.resolver 256 ⟨"View"⟩ node 0
          ⟨source.types, dest⟩).value.1 = .ok a ∧
        ∃ l target val c, a = .assign l target val c ∧
          val.rational? (Function.update (fun _ => none) "v" (some 1)) = some (1 / 8) ∧
          node.rational? (Function.update (fun _ => none) "x" (some (1 / 8))) = some 1 ∧
          ∀ u, node.rational? (Function.update (fun _ => none) "x" (some u)) = some 1 →
            u = 1 / 8 := by
  refine ⟨_, _, _, rfl, rfl, rfl, exists_ok (by decide +kernel) fun a ha => ?_⟩
  obtain ⟨l, target, val, c, rfl, hall⟩ := solve_linear (Model.reachable_build _)
    (Model.reachable_build _) (Model.delimited_build (by decide)) (Model.delimited_build (by decide))
    (i := 5) rfl rfl ha
    (.neg _ (.binary _ .sub rfl (.binary _ .div rfl (.leaf (p := "x") rfl))))
  obtain ⟨hback, hsolved⟩ := hall (fun _ => none) (fun _ => none) 1
  have hval :=
    hsolved (1 / 8) (1 / 4) (-1) (by decide +kernel) (by decide +kernel) (by decide +kernel)
  obtain ⟨hvalue, hunique⟩ := hback (1 / 8) hval (by decide +kernel)
  exact ⟨l, target, val, c, rfl, hval, hvalue, hunique⟩

end Inverse

end DataBinding
