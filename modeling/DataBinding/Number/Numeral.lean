/-!
# Numbers — numerals

Numerals are read from lists of characters.  A digit is one of the ten ASCII digits.

* `Numeral.nat?` reads one or more digits.
* `Numeral.int64?` reads an optional sign and digits that denote a 64-bit integer.
* `Numeral.float?` reads an optional sign and `inf`, `infinity` or `nan` in any letter case, or a
  decimal with an optional point and an optional power of ten, rounded to the nearest double.
-/

namespace DataBinding.Numeral

/-- The number that a digit denotes. -/
def digit (c : Char) : Nat := c.toNat - '0'.toNat

/-- The number that a sequence of digits denotes in base ten. -/
def value (digits : List Char) : Nat := digits.foldl (fun n c => 10 * n + digit c) 0

/-- Reads one or more digits and nothing else. -/
def nat? (text : List Char) : Option Nat :=
  if text ≠ [] ∧ text.all Char.isDigit then some (value text) else none

/-- Splits an optional sign off; `true` stands for minus. -/
def sign : List Char → Bool × List Char
  | '+' :: rest => (false, rest)
  | '-' :: rest => (true, rest)
  | text => (false, text)

/-- Reads an optional sign and one or more digits. -/
def int? (text : List Char) : Option Int :=
  let (negative, rest) := sign text
  (nat? rest).map fun n => if negative then -(n : Int) else n

/-- Reads an integer of the 64-bit range. -/
def int64? (text : List Char) : Option Int64 :=
  (int? text).bind fun n =>
    if Int64.minValue.toInt ≤ n ∧ n ≤ Int64.maxValue.toInt then some (Int64.ofInt n) else none

/-! ### Doubles -/

/-- Splits the leading digits off. -/
def leadingDigits (text : List Char) : List Char × List Char :=
  (text.takeWhile Char.isDigit, text.dropWhile Char.isDigit)

/-- The fraction digits after an optional point. -/
def fraction : List Char → List Char × List Char
  | '.' :: rest => leadingDigits rest
  | text => ([], text)

/-- The power of ten that ends a decimal: absent, or the letter `e` and an integer. -/
def powerOfTen? : List Char → Option Int
  | [] => some 0
  | 'e' :: rest | 'E' :: rest => int? rest
  | _ => none

/-- The double nearest to `digits · 10 ^ exponent`.  What is below `10 ^ (-330)` is less than half the
least positive double, and what is at least `10 ^ 330` exceeds the largest. -/
def nearestFloat (digits : Nat) (exponent : Int) : Float :=
  let magnitude := (toString digits).length + exponent
  if digits = 0 ∨ magnitude < -330 then 0
  else if 330 < magnitude then Float.ofBits 0x7ff0000000000000
  else Float.ofScientific digits (decide (exponent < 0)) exponent.natAbs

/-- Reads an unsigned decimal with at least one digit before or after the point. -/
def decimal? (text : List Char) : Option Float :=
  let (whole, afterWhole) := leadingDigits text
  let (part, afterPart) := fraction afterWhole
  if whole = [] ∧ part = [] then none
  else (powerOfTen? afterPart).map fun e => nearestFloat (value (whole ++ part)) (e - part.length)

/-- Reads an unsigned double. -/
def unsignedFloat? (text : List Char) : Option Float :=
  let word := text.map Char.toLower
  if word = "inf".toList ∨ word = "infinity".toList then some (Float.ofBits 0x7ff0000000000000)
  else if word = "nan".toList then some (Float.ofBits 0x7ff8000000000000)
  else decimal? text

/-- Reads an optional sign and an unsigned double. -/
def float? (text : List Char) : Option Float :=
  let (negative, rest) := sign text
  (unsignedFloat? rest).map fun x => if negative then -x else x

end DataBinding.Numeral
