import RpnCalculator.Number.Arithmetic

/-!
# The common logarithm of a double

A positive number is `m · 2 ^ y` with `m` near one, and its common logarithm is
`y · log₁₀ 2 + ln m / ln 10`.  Of these parts `ln m` is computed exactly enough to be rounded
once; the products and sums around it are operations on doubles, each of which rounds.

## Why the rounding shows

The sum is off by a few units in the last place at most.  But the integer part of a logarithm
jumps at every power of ten, and there the last place decides.  A number a few units below
a power of ten can have a logarithm that comes out as the integer itself, so the order of
the operations is part of the result.
-/

namespace RpnCalculator

/-! ## The natural logarithm of a fraction -/

/-- Fixed-point numbers count units of this size: `2 ^ 192` of them make one. -/
def logarithmUnits : Nat := Nat.pow 2 192

/-- The sum of `count` terms of `t ^ k / k + t ^ (k + 2) / (k + 2) + …` in units, for
`t = a / b`, where `power` is `t ^ k` in units. -/
def oddPowerSum (a b : Nat) : Nat → Nat → Nat → Nat
  | 0, _, _ => 0
  | count + 1, k, power =>
    power / k + oddPowerSum a b count (k + 2) (power * (a * a) / (b * b))

namespace Double

/-- The natural logarithm of `n / d`, for a fraction between a half and two.

With `t = (n - d) / (n + d)` it is `2 · (t + t ^ 3 / 3 + t ^ 5 / 5 + …)`.  As `t` is at most a
third, a term is less than a ninth of the one before, and after 64 of them less than one unit
is missing. -/
def naturalLog (n d : Nat) : Double :=
  let a := if n < d then d - n else n - d
  let b := n + d
  ofRatio (decide (n < d)) (2 * oddPowerSum a b 64 1 (a * logarithmUnits / b)) logarithmUnits

/-- The reciprocal of the natural logarithm of ten. -/
def tenLogInverse : Double := ⟨0x3FDBCB7B1526E50E⟩

/-- The leading bits of the common logarithm of two, so few that the product with an exponent is
exact. -/
def twoLogHigh : Double := ⟨0x3FD34413509F6000⟩

/-- What the leading bits leave of the common logarithm of two. -/
def twoLogLow : Double := ⟨0x3D59FEF311F12B36⟩

/-- The common logarithm of the absolute value of a finite number other than zero.

Numbers from one on have `1 ≤ m < 2` and those below have `1 / 2 ≤ m < 1`, so that the two parts
of the sum have one sign and nothing cancels. -/
def commonLog (x : Double) : Double :=
  let (n, d) := x.ratio
  let p := binaryExponent n d
  let y := if p < 0 then p + 1 else p
  let log := naturalLog (n * Nat.pow 2 (-y).toNat) (d * Nat.pow 2 y.toNat)
  (ofInt y * twoLogLow + tenLogInverse * log) + ofInt y * twoLogHigh

end Double

end RpnCalculator
