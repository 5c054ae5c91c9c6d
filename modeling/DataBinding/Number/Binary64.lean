/-!
# Numbers — the exact value of a double

A double is no number, an infinity, or `±mantissa · 2 ^ exponent` for a natural mantissa and an
integer exponent.  `Binary64` is that reading of the 64 bits.  Operations that are exact on the
value, so that no rounding enters, are defined through it:

* `Binary64.truncate` drops the fraction of a double;
* `Binary64.toInt64` is the truncation, held to the 64-bit range;
* `Binary64.remainder` is `x - n · y` for the integer `n` nearest to zero between `0` and `x / y`.
-/

namespace DataBinding

/-- What the 64 bits of a double denote. -/
inductive Binary64 where
  | nan
  | infinite (negative : Bool)
  /-- The number `±mantissa · 2 ^ exponent`. -/
  | finite (negative : Bool) (mantissa : Nat) (exponent : Int)
deriving DecidableEq, Repr

namespace Binary64

/-- The exponent of the least positive double, `2 ^ (-1074)`. -/
def minExponent : Int := -1074

/-- Reads the sign bit, the eleven exponent bits and the 52 fraction bits.  Exponent bits of zero
mark a number without the hidden leading bit. -/
def ofFloat (x : Float) : Binary64 :=
  let bits := x.toBits.toNat
  let negative := decide (Nat.pow 2 63 ≤ bits)
  let scale : Nat := bits / Nat.pow 2 52 % Nat.pow 2 11
  let fraction : Nat := bits % Nat.pow 2 52
  if scale = 2047 then
    if fraction = 0 then .infinite negative else .nan
  else if scale = 0 then .finite negative fraction minExponent
  else .finite negative (Nat.pow 2 52 + fraction) ((scale : Int) - 1 + minExponent)

/-- The bits of a number whose mantissa is below `2 ^ 53` and whose exponent is at least
`minExponent`: the mantissa is moved up until its leading bit is the hidden one, or the exponent
is the least. -/
def finiteBits (mantissa : Nat) (exponent : Int) : Nat :=
  let shift := min (52 - mantissa.log2) (exponent - minExponent).toNat
  let m := mantissa * Nat.pow 2 shift
  if m < Nat.pow 2 52 then m
  else (exponent - shift - minExponent).toNat * Nat.pow 2 52 + m

/-- The double that denotes the given value, which is to be one a double can denote. -/
def toFloat : Binary64 → Float
  | .nan => Float.ofBits 0x7ff8000000000000
  | .infinite negative => Float.ofBits (if negative then 0xfff0000000000000 else 0x7ff0000000000000)
  | .finite negative mantissa exponent =>
    Float.ofBits ((if negative then Nat.pow 2 63 else 0) + finiteBits mantissa exponent).toUInt64

/-! ### Truncation -/

/-- The integer part of `mantissa · 2 ^ exponent`. -/
def floorPart (mantissa : Nat) (exponent : Int) : Nat :=
  if 0 ≤ exponent then mantissa * Nat.pow 2 exponent.toNat
  else mantissa / Nat.pow 2 (-exponent).toNat

/-- The integer that a finite double becomes when its fraction is dropped. -/
def truncate (negative : Bool) (mantissa : Nat) (exponent : Int) : Int :=
  if negative then -(floorPart mantissa exponent : Int) else floorPart mantissa exponent

/-- The 64-bit integer nearest to an integer. -/
def clamp (n : Int) : Int64 :=
  Int64.ofInt (max Int64.minValue.toInt (min Int64.maxValue.toInt n))

/-- Drops the fraction and holds the result to the 64-bit range; a double that is no number
becomes zero. -/
def toInt64 (x : Float) : Int64 :=
  match ofFloat x with
  | .nan => 0
  | .infinite negative => if negative then Int64.minValue else Int64.maxValue
  | .finite negative mantissa exponent => clamp (truncate negative mantissa exponent)

/-! ### Remainder -/

/-- The remainder of two doubles, exact and with the sign of the first.  It is no number when the
first is infinite or the second is zero. -/
def remainder (x y : Float) : Float :=
  match ofFloat x, ofFloat y with
  | .finite negative m e, .finite _ n f =>
    if n = 0 then nan.toFloat
    else
      let g := min e f
      toFloat (.finite negative (m * Nat.pow 2 (e - g).toNat % (n * Nat.pow 2 (f - g).toNat)) g)
  | .finite _ _ _, .infinite _ => x
  | _, _ => nan.toFloat

end Binary64

end DataBinding
