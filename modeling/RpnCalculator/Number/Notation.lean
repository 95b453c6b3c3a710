import RpnCalculator.Number.Logarithm
import RpnCalculator.Text.Digits

/-!
# Decimal notation of doubles

Three notations of a finite double with a given number of decimals.

* `Double.fixed`: digits, a point, decimals.
* `Double.scientific`: one digit before the point, and a decimal exponent.
* `Double.engineering`: one to three digits before the point, and an exponent that is
  a multiple of three.

The first two round the exact value of the double, ties to even, so every digit they
show is right.  A minus sign is kept in front of a value that rounds to zero.

## Engineering notation rounds three times

The third notation does not show the exact value.  It divides by a power of ten that
is itself a rounded double and shows the quotient, and it reads the exponent off the
computed logarithm.  Two consequences are visible.  A value so close below a power of
ten that its logarithm comes out as an integer gets the exponent of that power, and its
mantissa is then a little below one.  And a value below `10 ^ (-306)` is divided by
`1 / 10 ^ 309 = 1 / ∞ = 0`, so its mantissa is an infinity.
-/

namespace RpnCalculator

/-- The digits of `n` with a point before the last `decimals` of them, and at least one
digit in front of the point. -/
def withPoint (decimals n : Nat) : List Char :=
  let ds := Text.writeDecimal n
  let ds := List.replicate (decimals + 1 - ds.length) '0' ++ ds
  if decimals = 0 then ds
  else ds.take (ds.length - decimals) ++ '.' :: ds.drop (ds.length - decimals)

/-- The largest `p` with `10 ^ p ≤ n / d`, for `n` and `d` not zero. -/
def decimalExponent (n d : Nat) : Int :=
  let a := (Text.writeDecimal n).length
  let b := (Text.writeDecimal d).length
  let p : Int := (a : Int) - b
  let reached :=
    if 0 ≤ p then decide (d * Nat.pow 10 p.toNat ≤ n)
    else decide (d ≤ n * Nat.pow 10 (-p).toNat)
  if reached then p else p - 1

/-- `n / d · 10 ^ e`, rounded to an integer. -/
def roundScaled (n d : Nat) (e : Int) : Nat :=
  if 0 ≤ e then roundRatio (n * Nat.pow 10 e.toNat) d
  else roundRatio n (d * Nat.pow 10 (-e).toNat)

namespace Double

/-- A minus sign for a number with its sign bit set. -/
def sign (x : Double) : List Char := if x.negative then ['-'] else []

/-- Fixed notation.  An infinity or a NaN is written as a word. -/
def fixed (decimals : Nat) (x : Double) : List Char :=
  if x.isNaN then ['N', 'a', 'N']
  else if x.isInfinite then x.sign ++ ['i', 'n', 'f']
  else x.sign ++ withPoint decimals (roundScaled x.ratio.1 x.ratio.2 decimals)

/-- The digits of the mantissa, as one number, and the exponent, for the scientific
notation of `n / d`.  A mantissa that rounds up to ten moves the exponent. -/
def scientificParts (decimals n d : Nat) : Nat × Int :=
  if n = 0 then (0, 0)
  else
    let p := decimalExponent n d
    let m := roundScaled n d (decimals - p)
    if m = Nat.pow 10 (decimals + 1) then (Nat.pow 10 decimals, p + 1) else (m, p)

/-- Mantissa text and exponent in scientific notation, of a finite number. -/
def scientific (decimals : Nat) (x : Double) : List Char × Int :=
  let (m, p) := scientificParts decimals x.ratio.1 x.ratio.2
  (x.sign ++ withPoint decimals m, p)

/-! ## Engineering notation -/

/-- The integer part of the common logarithm of a finite number other than zero, as the
logarithm is computed. -/
def logarithmFloor (x : Double) : Int := x.commonLog.floor.toInt?.getD 0

/-- The text without the minus signs in front. -/
def dropMinus (text : List Char) : List Char := text.dropWhile (· == '-')

/-- Mantissa text and exponent in engineering notation, of a finite number.

A mantissa just below a thousand can round up to `1000`; it is then written with the
next exponent. -/
def engineering (decimals : Nat) (x : Double) : List Char × Int :=
  if x.isZero then (fixed decimals zero, 0)
  else
    let p := 3 * (x.logarithmFloor / 3)
    let text := fixed decimals (x / ten.powInt p)
    if ['1', '0', '0', '0'].isPrefixOf (dropMinus text) then
      (fixed decimals (x / ten.powInt (p + 3)), p + 3)
    else (text, p)

end Double

end RpnCalculator
