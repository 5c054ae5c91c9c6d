import DataBinding.Number.Binary64

/-!
# Numbers — the shortest decimal of a double

`shortest m e` is the decimal `digits · 10 ^ exponent` with the fewest digits among those that round
to the double `m · 2 ^ e`, and of these the one nearest to it; of two that are equally near, the
larger.

The reals that round to a double form an interval around it, which reaches halfway to its two
neighbours and holds its ends exactly when the mantissa is even.  Decimals with exponent `k` form a
grid of step `10 ^ k`.  If any point of a grid lies in the interval, then so does one of the two grid
points next to the double, so the search tries these two on ever finer grids.
-/

namespace DataBinding

/-- The number `digits · 10 ^ exponent`. -/
structure Decimal where
  digits : Nat
  exponent : Int
deriving DecidableEq, Repr

namespace Decimal

/-- The reals that round to a double, as `lower / scale` to `upper / scale`, around the double
`value / scale`. -/
structure Interval where
  lower : Nat
  value : Nat
  upper : Nat
  scale : Nat
  closed : Bool

/-- The interval of `m · 2 ^ e`, in quarters of the double's unit.  Below a power of two the
neighbouring double is only half as far away. -/
def Interval.around (m : Nat) (e : Int) : Interval :=
  let below := if m = Nat.pow 2 52 ∧ Binary64.minExponent < e then 1 else 2
  let up := Nat.pow 2 (e - 2).toNat
  { lower := (4 * m - below) * up
    value := 4 * m * up
    upper := (4 * m + 2) * up
    scale := Nat.pow 2 (2 - e).toNat
    closed := m % 2 = 0 }

/-- The same interval in units of `10 ^ k`. -/
def Interval.inTens (i : Interval) (k : Int) : Interval :=
  let up := Nat.pow 10 (-k).toNat
  { i with
    lower := i.lower * up
    value := i.value * up
    upper := i.upper * up
    scale := i.scale * Nat.pow 10 k.toNat }

/-- Whether the integer `d` lies in the interval. -/
def Interval.contains (i : Interval) (d : Nat) : Bool :=
  let x := d * i.scale
  if i.closed then decide (i.lower ≤ x ∧ x ≤ i.upper) else decide (i.lower < x ∧ x < i.upper)

/-- The integer in the interval that is nearest to its value, if it holds one; the larger of two
that are equally near. -/
def Interval.nearest? (i : Interval) : Option Nat :=
  let d := i.value / i.scale
  let up := d + 1
  match i.contains d, i.contains up with
  | false, false => none
  | true, false => some d
  | false, true => some up
  | true, true => some (if 2 * i.value < (2 * d + 1) * i.scale then d else up)

/-- Tries the grids `10 ^ k`, `10 ^ (k - 1)`, …, for the given number of grids. -/
def Interval.search (i : Interval) : Nat → Int → Decimal
  | 0, k => ⟨(i.inTens k).value / (i.inTens k).scale, k⟩
  | steps + 1, k =>
    match (i.inTens k).nearest? with
    | some d => ⟨d, k⟩
    | none => i.search steps (k - 1)

/-- The shortest decimal that rounds to `m · 2 ^ e`, for a positive mantissa.  The first grid is
coarser than the double, and a double has at most 17 shortest digits. -/
def shortest (m : Nat) (e : Int) : Decimal :=
  (Interval.around m e).search 24 ((e + m.log2 + 1) * 30103 / 100000 + 2)

/-! ### Positional notation -/

/-- The decimal written out without an exponent: no point for an integer, and a zero before the
point of a number below one. -/
def positional (d : Decimal) : String :=
  let text := toString d.digits
  let point := text.length + d.exponent
  if 0 ≤ d.exponent then text ++ "".pushn '0' d.exponent.toNat
  else if 0 < point then
    String.ofList (text.toList.take point.toNat ++ '.' :: text.toList.drop point.toNat)
  else "0." ++ "".pushn '0' (-point).toNat ++ text

end Decimal

/-- The text of a double: its shortest decimal in positional notation. -/
def Binary64.text (x : Float) : String :=
  let sign (negative : Bool) := if negative then "-" else ""
  match Binary64.ofFloat x with
  | .nan => "NaN"
  | .infinite negative => sign negative ++ "inf"
  | .finite negative m e =>
    sign negative ++ if m = 0 then "0" else (Decimal.shortest m e).positional

end DataBinding
