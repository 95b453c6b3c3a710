/-!
# Double precision numbers

A `Double` is the 64 bits of an IEEE 754 number and nothing else.  Stored objects
carry those bits, so two numbers are the same value exactly when their bits agree:
the two zeros differ, and so do two NaNs with different payloads.  Comparison by
size is a different relation, and it is defined here as well.

## Why the bits and not `Float`

`Float` has one NaN, so it cannot hold what a stored object holds.  The bits also
make everything that is not rounding plain arithmetic on natural numbers: sign,
magnitude, order, the exact value, and truncation.  `Float` is used only where a
result is rounded, and which NaN a result is, is said there (`Number.Arithmetic`).

## Order

Below the sign bit, the bits of a finite number or an infinity grow with its size.
Reading them as an integer with the number's sign (`Double.key`) therefore orders
the numbers, and sends both zeros to `0`.  Comparison is comparison of keys, once
NaNs are set aside.
-/

namespace RpnCalculator

/-- An IEEE 754 double precision number, as its bits. -/
structure Double where
  /-- Sign, eleven bits of exponent, fifty-two bits of fraction. -/
  bits : UInt64
  deriving DecidableEq, Inhabited, Repr

namespace Double

/-! ## The fields -/

/-- The bit that carries the sign, as a number. -/
def signBit : Nat := 0x8000000000000000

/-- One more than the largest fraction. -/
def fractionSize : Nat := 0x10000000000000

/-- The magnitude of the infinities.  Finite numbers are below it, NaNs above. -/
def infinityMagnitude : Nat := 0x7FF0000000000000

/-- The bits below the sign. -/
def magnitude (x : Double) : Nat := x.bits.toNat % signBit

/-- Whether the sign bit is set. -/
def negative (x : Double) : Bool := decide (signBit ≤ x.bits.toNat)

/-- The number with the given sign and magnitude. -/
def ofMagnitude (negative : Bool) (m : Nat) : Double :=
  ⟨UInt64.ofNat (if negative then signBit + m else m)⟩

def isNaN (x : Double) : Bool := decide (infinityMagnitude < x.magnitude)

def isInfinite (x : Double) : Bool := decide (x.magnitude = infinityMagnitude)

def isFinite (x : Double) : Bool := decide (x.magnitude < infinityMagnitude)

/-- Whether the number is one of the two zeros. -/
def isZero (x : Double) : Bool := decide (x.magnitude = 0)

/-- Every number is exactly one of finite, infinite and NaN. -/
theorem isFinite_eq (x : Double) : x.isFinite = !(x.isNaN || x.isInfinite) := by
  simp only [isFinite, isNaN, isInfinite]
  by_cases h : x.magnitude < infinityMagnitude
  · simp [h, Nat.lt_asymm h, Nat.ne_of_lt h]
  · rcases Nat.eq_or_lt_of_le (Nat.not_lt.mp h) with h' | h'
    · simp [← h']
    · simp [h, h']

theorem magnitude_ofMagnitude (s : Bool) {m : Nat} (h : m < signBit) :
    (ofMagnitude s m).magnitude = m := by
  unfold signBit at h
  cases s
  · simp only [ofMagnitude, magnitude, signBit, Bool.false_eq_true, if_false,
      UInt64.toNat_ofNat']
    omega
  · simp only [ofMagnitude, magnitude, signBit, if_true, UInt64.toNat_ofNat']
    omega

/-! ## Sign changes -/

/-- The number with the other sign; a NaN keeps its payload. -/
def neg (x : Double) : Double := ofMagnitude (!x.negative) x.magnitude

/-- The number with a positive sign. -/
def abs (x : Double) : Double := ofMagnitude false x.magnitude

instance : Neg Double := ⟨neg⟩

/-! ## Comparison -/

/-- The magnitude with the sign of the number: both zeros have key `0`. -/
def key (x : Double) : Int := if x.negative then -(x.magnitude : Int) else x.magnitude

/-- Comparison by size; a NaN compares with nothing. -/
def compare? (x y : Double) : Option Ordering :=
  if x.isNaN || y.isNaN then none
  else if x.key < y.key then some .lt
  else if x.key = y.key then some .eq
  else some .gt

/-- Equality by size: the zeros are equal and a NaN differs from itself. -/
def equals (x y : Double) : Bool := x.compare? y == some .eq

/-- Strictly smaller by size. -/
def less (x y : Double) : Bool := x.compare? y == some .lt

theorem compare?_eq_none_iff {x y : Double} :
    x.compare? y = none ↔ (x.isNaN || y.isNaN) = true := by
  unfold compare?
  by_cases h : (x.isNaN || y.isNaN) = true
  · simp [h]
  · simp only [h, Bool.false_eq_true, if_false, iff_false]
    split
    · simp
    · split <;> simp

/-- Comparing in the other order turns the answer round. -/
theorem compare?_swap (x y : Double) : y.compare? x = (x.compare? y).map Ordering.swap := by
  unfold compare?
  rw [Bool.or_comm y.isNaN]
  by_cases h : (x.isNaN || y.isNaN) = true
  · simp [h]
  · simp only [h, Bool.false_eq_true, if_false]
    rcases Int.lt_trichotomy x.key y.key with hlt | heq | hgt
    · simp [hlt, Int.lt_asymm hlt, Int.ne_of_gt hlt]
    · simp [heq]
    · simp [hgt, Int.lt_asymm hgt, Int.ne_of_gt hgt]

/-! ## The exact value

A finite number is `±significand · 2 ^ scale`. -/

/-- The exponent field. -/
def exponentField (x : Double) : Nat := x.magnitude / fractionSize

/-- The fraction field. -/
def fraction (x : Double) : Nat := x.magnitude % fractionSize

/-- The integer that the exponent scales.  A subnormal has no leading bit. -/
def significand (x : Double) : Nat :=
  if x.exponentField = 0 then x.fraction else fractionSize + x.fraction

/-- The power of two that scales the significand. -/
def scale (x : Double) : Int := (max 1 x.exponentField : Int) - 1075

/-- Numerator and denominator of the absolute value of a finite number. -/
def ratio (x : Double) : Nat × Nat :=
  if 0 ≤ x.scale then (x.significand * Nat.pow 2 x.scale.toNat, 1)
  else (x.significand, Nat.pow 2 (-x.scale).toNat)

theorem ratio_snd_pos (x : Double) : 0 < x.ratio.2 := by
  unfold ratio
  split
  · exact Nat.one_pos
  · exact Nat.pow_pos (by decide)

/-- A natural number with the sign of `x`. -/
def withSign (x : Double) (n : Nat) : Int := if x.negative then -(n : Int) else n

/-- The number as a fraction, if it is finite. -/
def toRat? (x : Double) : Option Rat :=
  if x.isFinite then some (mkRat (x.withSign x.ratio.1) x.ratio.2) else none

/-- The number without its fractional part, if it is finite. -/
def toInt? (x : Double) : Option Int :=
  if x.isFinite then some (x.withSign (x.ratio.1 / x.ratio.2)) else none

/-! ## Truncation

Truncation drops the bits of the fraction that stand for parts of a unit.  There are
`1075 - e` of them when the exponent field is `e`, all of them and the leading bit
when the number is below one, and none from `2 ^ 52` on. -/

/-- The number without its fractional part.  It keeps the sign, so `-0.5` becomes the
negative zero; infinities and NaNs stay as they are. -/
def trunc (x : Double) : Double :=
  if 1075 ≤ x.exponentField then x
  else if x.exponentField < 1023 then ofMagnitude x.negative 0
  else
    ofMagnitude x.negative
      (x.magnitude - x.magnitude % Nat.pow 2 (1075 - x.exponentField))

/-! ## Constants -/

def zero : Double := ⟨0⟩
def one : Double := ⟨0x3FF0000000000000⟩
def two : Double := ⟨0x4000000000000000⟩
def four : Double := ⟨0x4010000000000000⟩
def ten : Double := ⟨0x4024000000000000⟩
def infinity : Double := ⟨0x7FF0000000000000⟩
def nan : Double := ⟨0x7FF8000000000000⟩

/-- The NaN of an operation that has no result, such as `∞ - ∞`.  Its sign bit is set. -/
def indefinite : Double := ⟨0xFFF8000000000000⟩

/-- The double nearest to the circle constant. -/
def pi : Double := ⟨0x400921FB54442D18⟩

/-- The double nearest to the natural logarithm of ten. -/
def logTen : Double := ⟨0x40026BB1BBB55516⟩

end Double

end RpnCalculator
