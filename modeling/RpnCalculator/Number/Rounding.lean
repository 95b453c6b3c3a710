import RpnCalculator.Number.Double

/-!
# Rounding a fraction

Two roundings of an exact fraction, both to the nearest and with ties to even:
to an integer (`roundRatio`), and to a `Double` (`Double.ofRatio`).  Everything
that turns an exact number into a float goes through the second: rationals and decimal
literals as they are, integers after they have been cut to 64 bits (`leadingBits`).

## The grid of doubles

Between `2 ^ p` and `2 ^ (p + 1)` the doubles are `2 ^ (p - 52)` apart, and never
closer than `2 ^ (-1074)`.  So `ofRatio` finds the `p` of its fraction, measures
the fraction in steps of that grid, and rounds the number of steps.

The bits need no case distinction afterwards.  With `q` steps of size
`2 ^ (e - 1074)`, the magnitude is `q + e · 2 ^ 52`: the leading bit of `q` adds one
to the exponent field, so a normal number gets its field `e + 1`, a subnormal
(`e = 0`, `q < 2 ^ 52`) gets field `0`, and a carry out of the fraction moves into
the exponent by itself.
-/

namespace RpnCalculator

/-- The integer nearest to `n / d`, of two the even one. -/
def roundRatio (n d : Nat) : Nat :=
  let q := n / d
  let r := n % d
  if 2 * r < d then q
  else if d < 2 * r then q + 1
  else if q % 2 = 0 then q
  else q + 1

/-- An exact quotient is not changed by rounding. -/
theorem roundRatio_of_dvd {n d : Nat} (h : n % d = 0) (hd : 0 < d) :
    roundRatio n d = n / d := by
  unfold roundRatio
  simp [h, hd]

namespace Double

/-- The largest `p` with `2 ^ p ≤ n / d`, for `n` and `d` not zero. -/
def binaryExponent (n d : Nat) : Int :=
  let p : Int := (n.log2 : Int) - d.log2
  let reached :=
    if 0 ≤ p then decide (d * Nat.pow 2 p.toNat ≤ n)
    else decide (d ≤ n * Nat.pow 2 (-p).toNat)
  if reached then p else p - 1

/-- The double nearest to `n / d`, of two the one with the even fraction.  Beyond the
largest finite number the result is infinite. -/
def ofRatio (negative : Bool) (n d : Nat) : Double :=
  if n = 0 then ofMagnitude negative 0
  else
    -- The steps have size `2 ^ (e - 1074)`.
    let e := (binaryExponent n d + 1022).toNat
    let q :=
      if 1074 ≤ e then roundRatio n (d * Nat.pow 2 (e - 1074))
      else roundRatio (n * Nat.pow 2 (1074 - e)) d
    ofMagnitude negative (min (q + e * fractionSize) infinityMagnitude)

/-- The double nearest to `n · 2 ^ e`. -/
def ofScaled (negative : Bool) (n : Nat) (e : Int) : Double :=
  if 0 ≤ e then ofRatio negative (n * Nat.pow 2 e.toNat) 1
  else ofRatio negative n (Nat.pow 2 (-e).toNat)

/-- The double nearest to a fraction. -/
def ofRat (q : Rat) : Double := ofRatio (decide (q.num < 0)) q.num.natAbs q.den

/-! ## Integers

An integer of more than 64 bits is rounded twice: it is cut to its 64 leading bits, and
those are rounded.  To let the second rounding know what the first has cut off, the last of
the 64 bits is set if something was.  That would make the result the nearest double, but
what is cut off is not looked at in full.  The integer is taken to the base `2 ^ 64`, and of
every digit below the first one only as many low bits are looked at as the first digit has.
So a number a little above the midpoint of two doubles can be taken for the midpoint, and
then goes to the even one of them, which may be the lower. -/

/-- Whether one of the `count` lowest digits of `n` to the base `2 ^ 64` has a one among its
`k` lowest bits. -/
def anyLowBit (k : Nat) : Nat → Nat → Bool
  | 0, _ => false
  | count + 1, n => n % Nat.pow 2 k != 0 || anyLowBit k count (n / Nat.pow 2 64)

/-- The 64 leading bits of a number, the last one set for what is cut off, and how many bits
are cut off.  A number of at most 64 bits is left alone. -/
def leadingBits (n : Nat) : Nat × Nat :=
  if n.log2 < 64 then (n, 0)
  else
    let cut := n.log2 - 63
    let top := n / Nat.pow 2 cut
    (if anyLowBit (n.log2 % 64 + 1) (n.log2 / 64) n then top ||| 1 else top, cut)

/-- Nothing is cut off a number of at most 64 bits. -/
theorem leadingBits_of_log2_lt {n : Nat} (h : n.log2 < 64) : leadingBits n = (n, 0) := if_pos h

/-- A natural number as a double, with a sign in front. -/
def ofSigned (negative : Bool) (n : Nat) : Double :=
  ofScaled negative (leadingBits n).1 (leadingBits n).2

/-- Up to 64 bits the result is the nearest double. -/
theorem ofSigned_of_log2_lt (negative : Bool) {n : Nat} (h : n.log2 < 64) :
    ofSigned negative n = ofRatio negative n 1 := by
  unfold ofSigned ofScaled
  rw [leadingBits_of_log2_lt h]
  simp

/-- A natural number as a double. -/
def ofNat (n : Nat) : Double := ofSigned false n

/-- An integer as a double. -/
def ofInt (n : Int) : Double := ofSigned (decide (n < 0)) n.natAbs

/-! ## Decimal input -/

/-- The double nearest to `m · 10 ^ e`, for a number `m` of at most `digits` decimal digits.

A number with its first digit beyond the 400th place before or behind the point is out
of range whatever its digits are, so no power of ten is formed for it. -/
def ofDecimal (negative : Bool) (m digits : Nat) (e : Int) : Double :=
  if m = 0 then ofMagnitude negative 0
  else if 400 < e then ofMagnitude negative infinityMagnitude
  else if (digits : Int) + e < -400 then ofMagnitude negative 0
  else if 0 ≤ e then ofRatio negative (m * Nat.pow 10 e.toNat) 1
  else ofRatio negative m (Nat.pow 10 (-e).toNat)

end Double

end RpnCalculator
