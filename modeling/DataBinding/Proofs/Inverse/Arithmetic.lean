import DataBinding.Expr.Eval
import DataBinding.Inverse.Rearrange
import Mathlib.Algebra.Group.Int.Defs
import Mathlib.Algebra.Group.Nat.Defs

/-!
# Proofs — Inversion — integer steps

One step down an integer expression undoes one operator: `SpineStep.required` is the value that the
part has to take for the whole to take a given one, and `SpineStep.Exact` says when integers allow
it.  Sums, differences and negations wrap around and can always be undone; a product can where the
constant divides the value, and a quotient where the part it asks for is an integer of 64 bits.

A value that the whole already takes is attained, and more steps can be undone at such values: a
quotient always, up to the least integer.  But what a quotient requires of its part need not be
attained by the part, so the steps below it are on their own (`SpineStep.SteadyAlong`).

* `rearranged_onInts`: the rearranged equation computes the required value.
* `onInts_required`: with the required value the operator gives back the value.
* `valueAlong_of_exact`, `valueAlong_of_steady`: the same along steps, at values where they can be
  undone and at values that are attained.
-/

namespace DataBinding

/-! ### Integers of 64 bits -/

/-- The number is an integer of 64 bits. -/
def Fits (n : Int) : Prop := -2 ^ 63 ≤ n ∧ n < 2 ^ 63

instance (n : Int) : Decidable (Fits n) := inferInstanceAs (Decidable (_ ∧ _))

theorem Fits.bmod_eq {n : Int} (h : Fits n) : n.bmod (2 ^ 64) = n := by
  obtain ⟨hlow, hhigh⟩ := h
  apply Int.bmod_eq_of_le <;> omega

theorem fits_toInt (n : Int64) : Fits n.toInt := ⟨n.le_toInt, n.toInt_lt⟩

theorem toInt_ne_zero {n : Int64} (h : n ≠ 0) : n.toInt ≠ 0 := fun hn =>
  h (Int64.toInt_inj.mp (hn.trans Int64.toInt_zero.symm))

/-- An exact quotient can be undone, also where it wraps around. -/
theorem div_mul_cancel_of_dvd {u c : Int64} (h : c.toInt ∣ u.toInt) : u / c * c = u := by
  -- the least integer by -1 wraps around, and the product wraps back
  apply Int64.toInt_inj.mp
  rw [Int64.toInt_mul, Int64.toInt_div, Int.bmod_mul_bmod, Int.tdiv_mul_cancel h]
  exact (fits_toInt u).bmod_eq

theorem mul_div_cancel_of_fits {u c : Int64} (hc : c ≠ 0) (h : Fits (u.toInt * c.toInt)) :
    u * c / c = u := by
  apply Int64.toInt_inj.mp
  rw [Int64.toInt_div, Int64.toInt_mul, h.bmod_eq, Int.mul_tdiv_cancel _ (toInt_ne_zero hc)]
  exact (fits_toInt u).bmod_eq

theorem toInt_div_of_fits {u c : Int64} (hdvd : u.toInt ∣ c.toInt)
    (h : Fits (c.toInt / u.toInt)) : (c / u).toInt = c.toInt / u.toInt := by
  rw [Int64.toInt_div, Int.tdiv_eq_ediv_of_dvd hdvd, h.bmod_eq]

theorem div_ne_zero_of_fits {u c : Int64} (hc : c ≠ 0) (hdvd : u.toInt ∣ c.toInt)
    (h : Fits (c.toInt / u.toInt)) : c / u ≠ 0 := by
  intro hzero
  have hquot := toInt_div_of_fits hdvd h
  rw [hzero, Int64.toInt_zero] at hquot
  have hmul := Int.ediv_mul_cancel hdvd
  rw [← hquot, Int.zero_mul] at hmul
  exact toInt_ne_zero hc hmul.symm

theorem div_div_cancel_of_fits {u c : Int64} (hc : c ≠ 0) (hdvd : u.toInt ∣ c.toInt)
    (h : Fits (c.toInt / u.toInt)) : c / (c / u) = u := by
  have hquot := toInt_div_of_fits hdvd h
  have hne : c.toInt / u.toInt ≠ 0 := hquot ▸ toInt_ne_zero (div_ne_zero_of_fits hc hdvd h)
  apply Int64.toInt_inj.mp
  calc (c / (c / u)).toInt
      = (c.toInt.tdiv (c.toInt / u.toInt)).bmod (2 ^ 64) := by rw [Int64.toInt_div, hquot]
    _ = ((u.toInt * (c.toInt / u.toInt)).tdiv (c.toInt / u.toInt)).bmod (2 ^ 64) := by
        rw [Int.mul_ediv_cancel' hdvd]
    _ = u.toInt := by rw [Int.mul_tdiv_cancel _ hne, (fits_toInt u).bmod_eq]

/-- The product of a quotient with its divisor is no larger than the dividend. -/
theorem fits_tdiv_mul (m n : Int64) : Fits (m.toInt.tdiv n.toInt * n.toInt) := by
  have hm := fits_toInt m
  have hle : (m.toInt.tdiv n.toInt * n.toInt).natAbs ≤ m.toInt.natAbs := by
    rw [Int.natAbs_mul, Int.natAbs_tdiv]
    exact Nat.div_mul_le_self _ _
  have hrest : (m.toInt.tmod n.toInt).natAbs ≤ m.toInt.natAbs := by
    rw [Int.natAbs_tmod]
    exact Nat.mod_le _ _
  have hsum := Int.tdiv_mul_add_tmod m.toInt n.toInt
  unfold Fits at *
  omega

/-- What has been divided once is divided exactly again. -/
theorem div_mul_div_cancel (m : Int64) {n : Int64} (hn : n ≠ 0) : m / n * n / n = m / n := by
  have hmul : (m / n * n).toInt = m.toInt.tdiv n.toInt * n.toInt := by
    rw [Int64.toInt_mul, Int64.toInt_div, Int.bmod_mul_bmod, (fits_tdiv_mul m n).bmod_eq]
  apply Int64.toInt_inj.mp
  rw [Int64.toInt_div, hmul, Int.mul_tdiv_cancel _ (toInt_ne_zero hn), Int64.toInt_div]

theorem nat_div_div_div_self {n m : Nat} (h : n / m ≠ 0) : n / (n / (n / m)) = n / m := by
  have hpos := Nat.pos_of_ne_zero h
  have hm : 0 < m := Nat.pos_of_ne_zero fun hm => h (by rw [hm, Nat.div_zero])
  have hle : m ≤ n / (n / m) := (Nat.le_div_iff_mul_le hpos).mpr (Nat.mul_div_le n m)
  apply Nat.le_antisymm
  · exact Nat.div_le_div_left hle hm
  · exact (Nat.le_div_iff_mul_le (Nat.lt_of_lt_of_le hm hle)).mpr (Nat.mul_div_le n (n / m))

theorem tdiv_tdiv_tdiv_self {n m : Int} (h : n.tdiv m ≠ 0) :
    n.tdiv (n.tdiv (n.tdiv m)) = n.tdiv m := by
  obtain ⟨a, rfl | rfl⟩ := n.eq_nat_or_neg <;> obtain ⟨b, rfl | rfl⟩ := m.eq_nat_or_neg <;>
    simp only [Int.neg_tdiv, Int.tdiv_neg, Int.neg_neg, ← Int.ofNat_tdiv, ne_eq, Int.neg_eq_zero,
      Int.natCast_eq_zero] at h ⊢ <;>
    rw [nat_div_div_div_self h]

/-- Only the least integer has a quotient that wraps around. -/
theorem toInt_div_of_ne_min {n : Int64} (hn : n ≠ Int64.minValue) (k : Int64) :
    (n / k).toInt = n.toInt.tdiv k.toInt := by
  have hle := Int.natAbs_tdiv_le_natAbs n.toInt k.toInt
  have hne : n.toInt ≠ -2 ^ 63 := fun h => hn (Int64.toInt_inj.mp h)
  have hfits : Fits (n.toInt.tdiv k.toInt) := by
    have hn := fits_toInt n
    unfold Fits at *
    omega
  rw [Int64.toInt_div, hfits.bmod_eq]

/-- A quotient by a quotient of the same dividend has it as its quotient again. -/
theorem div_div_div_self {n m : Int64} (hn : n ≠ Int64.minValue) (h : n / m ≠ 0) :
    n / (n / m) ≠ 0 ∧ n / (n / (n / m)) = n / m := by
  have hquot : n.toInt.tdiv m.toInt ≠ 0 := toInt_div_of_ne_min hn m ▸ toInt_ne_zero h
  have hself := tdiv_tdiv_tdiv_self hquot
  refine ⟨fun hzero => ?_, ?_⟩
  · have hzero' := toInt_div_of_ne_min hn (n / m)
    rw [hzero, Int64.toInt_zero, toInt_div_of_ne_min hn m] at hzero'
    rw [← hzero', Int.tdiv_zero] at hself
    exact hquot hself.symm
  · apply Int64.toInt_inj.mp
    simp only [toInt_div_of_ne_min hn, hself]

/-! ### Steps -/

/-- One step down an integer expression. -/
inductive SpineStep where
  /-- To the operand on the given side of an operator, where the other is a constant. -/
  | binary (op : BinaryOp) (side : Side) (constant : Int64)
  | unary (op : UnaryOp)
  | group
deriving DecidableEq, Repr

namespace SpineStep

/-- What the part has to be for the whole to be `u`. -/
def required (u : Int64) : SpineStep → Int64
  | binary .add _ c => u - c
  | binary .sub .left c => u + c
  | binary .sub .right c => c - u
  | binary .mul _ c => u / c
  | binary .div .left c => u * c
  | binary .div .right c => c / u
  | unary .neg => -u
  | unary .bitNot => ~~~u
  | binary .rem _ _ | unary .not | group => u

/-- The step can be undone at `u`: of `x * c` the constant divides it, of `x / c` the product is an
integer of 64 bits, and of `c / x` it divides the constant; remainders and logical negations are no
integer steps. -/
def Exact (u : Int64) : SpineStep → Prop
  | binary .mul _ c => c ≠ 0 ∧ c.toInt ∣ u.toInt
  | binary .div .left c => c ≠ 0 ∧ Fits (u.toInt * c.toInt)
  | binary .div .right c => c ≠ 0 ∧ u ≠ 0 ∧ u.toInt ∣ c.toInt ∧ Fits (c.toInt / u.toInt)
  | binary .rem _ _ | unary .not => False
  | binary .add _ _ | binary .sub _ _ | unary .neg | unary .bitNot | group => True

instance decidableExact (u : Int64) : (step : SpineStep) → Decidable (step.Exact u)
  | binary .mul _ _ | binary .div .left _ | binary .div .right _ =>
    inferInstanceAs (Decidable (_ ∧ _))
  | binary .rem _ _ | unary .not => inferInstanceAs (Decidable False)
  | binary .add _ _ | binary .sub _ _ | unary .neg | unary .bitNot | group =>
    inferInstanceAs (Decidable True)

/-- Each step can be undone at the value that the steps before it require. -/
def ExactAlong : List SpineStep → Int64 → Prop
  | [], _ => True
  | step :: steps, u => step.Exact u ∧ ExactAlong steps (step.required u)

instance decidableExactAlong : (steps : List SpineStep) → (u : Int64) →
    Decidable (ExactAlong steps u)
  | [], _ => inferInstanceAs (Decidable True)
  | step :: steps, u =>
    @instDecidableAnd _ _ (decidableExact u step) (decidableExactAlong steps (step.required u))

variable {u c : Int64} {op : BinaryOp} {side : Side}

/-- The rearranged equation computes what is required. -/
theorem rearranged_onInts {r : Rearrangement} (hr : Rearrangement.of? op side = some r)
    (h : (binary op side c).Exact u) :
    (if r.valueFirst then r.op.onInts u c else r.op.onInts c u) =
      .ok ((binary op side c).required u) := by
  cases op with
  | add => cases hr; rfl
  | sub => cases side <;> cases hr <;> rfl
  | mul =>
      cases hr
      exact if_neg h.1
  | div =>
      cases side with
      | left => cases hr; rfl
      | right =>
          cases hr
          exact if_neg h.2.1
  | rem => cases hr

/-- **With what is required, the operator gives back the value.** -/
theorem onInts_required (h : (binary op side c).Exact u) :
    op.onInts (side.split ((binary op side c).required u) c).1
      (side.split ((binary op side c).required u) c).2 = .ok u := by
  cases op with
  | add =>
      cases side
      · exact congrArg Except.ok (show u - c + c = u by grind)
      · exact congrArg Except.ok (show c + (u - c) = u by grind)
  | sub =>
      cases side
      · exact congrArg Except.ok (show u + c - c = u by grind)
      · exact congrArg Except.ok (show c - (c - u) = u by grind)
  | mul =>
      have hcancel : u / c * c = u := div_mul_cancel_of_dvd h.2
      cases side
      · exact congrArg Except.ok hcancel
      · exact congrArg Except.ok ((Int64.mul_comm _ _).trans hcancel)
  | div =>
      cases side with
      | left =>
          obtain ⟨hc, hfits⟩ := h
          exact (if_neg hc).trans (congrArg Except.ok (mul_div_cancel_of_fits hc hfits))
      | right =>
          obtain ⟨hc, -, hdvd, hfits⟩ := h
          exact (if_neg (div_ne_zero_of_fits hc hdvd hfits)).trans
            (congrArg Except.ok (div_div_cancel_of_fits hc hdvd hfits))
  | rem => exact h.elim

/-! ### Attained values -/

/-- The value of the whole from that of the part. -/
def onInt (x : Int64) : SpineStep → Except EvalError Int64
  | binary op side c => op.onInts (side.split x c).1 (side.split x c).2
  | unary .neg => .ok (-x)
  | unary .bitNot => .ok (~~~x)
  | unary .not => .error (.mismatch UnaryOp.not.symbol [.int])
  | group => .ok x

/-- The value at the beginning of the steps from that at their end. -/
def valueAlong (x : Int64) : List SpineStep → Except EvalError Int64
  | [] => .ok x
  | step :: steps => do step.onInt (← valueAlong x steps)

/-- What is required at the end of the steps, from what is required at their beginning. -/
def requiredAlong : List SpineStep → Int64 → Int64
  | [], u => u
  | step :: steps, u => requiredAlong steps (step.required u)

/-- The rearranged equation has a value: it does not divide by zero. -/
def Solvable (u : Int64) : SpineStep → Prop
  | binary .mul _ c => c ≠ 0
  | binary .div .right _ => u ≠ 0
  | binary .rem _ _ | unary .not => False
  | binary .add _ _ | binary .sub _ _ | binary .div .left _ | unary .neg | unary .bitNot | group =>
    True

def SolvableAlong : List SpineStep → Int64 → Prop
  | [], _ => True
  | step :: steps, u => step.Solvable u ∧ SolvableAlong steps (step.required u)

/-- The value `x` of the part can be told from the value of the whole. -/
def Lossless (x : Int64) : SpineStep → Prop
  | binary .mul _ c => Fits (x.toInt * c.toInt)
  | binary .div _ _ | binary .rem _ _ | unary .not => False
  | binary .add _ _ | binary .sub _ _ | unary .neg | unary .bitNot | group => True

instance decidableLossless (x : Int64) : (step : SpineStep) → Decidable (step.Lossless x)
  | binary .mul _ c => inferInstanceAs (Decidable (Fits (x.toInt * c.toInt)))
  | binary .div _ _ | binary .rem _ _ | unary .not => inferInstanceAs (Decidable False)
  | binary .add _ _ | binary .sub _ _ | unary .neg | unary .bitNot | group =>
    inferInstanceAs (Decidable True)

/-- The steps can be undone at the value `u` that they attain where their end has the value `x`: down
to the first quotient nothing is lost, and below it the steps can be undone at what is required of
them.  Of a quotient `c / x` the constant is not the least integer. -/
def SteadyAlong (x : Int64) : List SpineStep → Int64 → Prop
  | [], _ => True
  | binary .div side c :: steps, u =>
    (side = .right → c ≠ Int64.minValue) ∧ ExactAlong steps ((binary .div side c).required u)
  | step :: steps, u =>
    (∃ z, valueAlong x steps = .ok z ∧ step.Lossless z) ∧ SteadyAlong x steps (step.required u)

variable {step : SpineStep} {steps : List SpineStep} {x z : Int64}

theorem onInt_required (h : step.Exact u) : step.onInt (step.required u) = .ok u := by
  cases step with
  | binary op side c => exact onInts_required h
  | unary op =>
      cases op with
      | neg => exact congrArg Except.ok Int64.neg_neg
      | bitNot => exact congrArg Except.ok Int64.not_not
      | not => exact h.elim
  | group => rfl

/-- Where nothing is lost, what is required of the part is the value that it has. -/
theorem required_of_lossless (hl : step.Lossless z) (hu : step.onInt z = .ok u)
    (hs : step.Solvable u) : step.required u = z := by
  cases step with
  | binary op side c =>
      cases op with
      | add | sub =>
          cases side <;> cases hu <;> simp only [required, Side.split] <;> grind
      | mul =>
          have hcancel : z * c / c = z := mul_div_cancel_of_fits hs hl
          cases side <;> cases hu
          · exact hcancel
          · exact (congrArg (· / c) (Int64.mul_comm c z)).trans hcancel
      | div | rem => exact hl.elim
  | unary op =>
      cases op with
      | neg =>
          cases hu
          exact Int64.neg_neg
      | bitNot =>
          cases hu
          exact Int64.not_not
      | not => exact hl.elim
  | group =>
      cases hu
      rfl

/-- A quotient can be undone at a value that it attains. -/
theorem onInt_required_of_attained {side : Side} (hc : side = .right → c ≠ Int64.minValue)
    (hu : (binary .div side c).onInt z = .ok u) (hs : (binary .div side c).Solvable u) :
    (binary .div side c).onInt ((binary .div side c).required u) = .ok u := by
  have quotient {m n : Int64} (h : BinaryOp.div.onInts m n = .ok u) : n ≠ 0 ∧ u = m / n := by
    rw [BinaryOp.onInts] at h
    split at h
    · cases h
    · cases h
      exact ⟨‹_›, rfl⟩
  cases side with
  | left =>
      obtain ⟨hne, rfl⟩ := quotient hu
      exact (if_neg hne).trans (congrArg Except.ok (div_mul_div_cancel z hne))
  | right =>
      obtain ⟨-, rfl⟩ := quotient hu
      obtain ⟨hne, hself⟩ := div_div_div_self (hc rfl) hs
      exact (if_neg hne).trans (congrArg Except.ok hself)

/-- **The value comes back along steps that can be undone.** -/
theorem valueAlong_of_exact (h : ExactAlong steps u) :
    valueAlong (requiredAlong steps u) steps = .ok u := by
  induction steps generalizing u with
  | nil => rfl
  | cons step steps ih =>
      rw [valueAlong, requiredAlong, ih h.2]
      exact onInt_required h.1

/-- **The value comes back along steps that attain it**, if they are steady. -/
theorem valueAlong_of_steady (hu : valueAlong x steps = .ok u) (hs : SolvableAlong steps u)
    (h : SteadyAlong x steps u) : valueAlong (requiredAlong steps u) steps = .ok u := by
  induction steps generalizing u with
  | nil => rfl
  | cons step steps ih =>
      obtain ⟨hsolvable, hs⟩ := hs
      rw [valueAlong] at hu ⊢
      cases hz : valueAlong x steps with
      | error e =>
          rw [hz] at hu
          cases hu
      | ok z =>
          rw [hz] at hu
          have lossless (hl : ∃ z, valueAlong x steps = .ok z ∧ step.Lossless z)
              (h : SteadyAlong x steps (step.required u)) :
              (valueAlong (requiredAlong (step :: steps) u) steps >>= step.onInt) = .ok u := by
            obtain ⟨z', hz', hl⟩ := hl
            cases hz.symm.trans hz'
            have hreq := required_of_lossless hl hu hsolvable
            rw [hreq] at h hs
            rw [requiredAlong, hreq, ih hz hs h]
            exact hu
          cases step with
          | binary op side c =>
              cases op with
              | div =>
                  rw [requiredAlong, valueAlong_of_exact h.2]
                  exact onInt_required_of_attained h.1 hu hsolvable
              | _ => exact lossless h.1 h.2
          | _ => exact lossless h.1 h.2

end SpineStep

end DataBinding
