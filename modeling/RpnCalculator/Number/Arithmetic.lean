import RpnCalculator.Number.Rounding

/-!
# Arithmetic of doubles

The four operations and the square root are those of IEEE 754, rounded to nearest;
`Float` provides them together with their meaning.  Truncation and the integer part are
computed exactly on the bits; powers and the hypotenuse are put together from the
operations, in an order that is part of the result.

The remaining functions (`sin`, `exp`, `log`, …) are those of the machine, about which
nothing is known here but their names.  Where their value at an infinity is a matter
of definition and not of approximation, it is written out: a trigonometric function
has no value there, so the result is a NaN.

## Which NaN

`Float` has one NaN and doubles have many, told apart by their sign and fraction.  The sign
matters: the root of a complex number looks at it.  A NaN among the operands goes
through an operation, of two the first; an operation that has no result for operands that
are numbers gives `indefinite`.
-/

namespace RpnCalculator

namespace Double

/-- The machine number with these bits. -/
def toFloat (x : Double) : Float := .ofBits x.bits

/-- The bits of a machine number. -/
def ofFloat (x : Float) : Double := ⟨x.toBits⟩

/-- The NaN that an operation passes on: its operand with the first bit of the fraction set,
which marks a NaN that raises no alarm. -/
def quiet (x : Double) : Double := ⟨x.bits ||| 0x0008000000000000⟩

/-- The NaN that an operation on `x` results in. -/
def nanOf (x : Double) : Double := if x.isNaN then x.quiet else indefinite

/-- The NaN that an operation on `x` and `y` results in. -/
def nanOf₂ (x y : Double) : Double := if x.isNaN then x.quiet else y.nanOf

/-- The result of an operation on `x` of which the machine computes `r`. -/
def result (x : Double) (r : Float) : Double := if (ofFloat r).isNaN then x.nanOf else ofFloat r

/-- The result of an operation on `x` and `y` of which the machine computes `r`. -/
def result₂ (x y : Double) (r : Float) : Double :=
  if (ofFloat r).isNaN then x.nanOf₂ y else ofFloat r

instance : Add Double := ⟨fun x y => result₂ x y (x.toFloat + y.toFloat)⟩
instance : Sub Double := ⟨fun x y => result₂ x y (x.toFloat - y.toFloat)⟩
instance : Mul Double := ⟨fun x y => result₂ x y (x.toFloat * y.toFloat)⟩
instance : Div Double := ⟨fun x y => result₂ x y (x.toFloat / y.toFloat)⟩

/-- The square root, a NaN below zero. -/
def sqrt (x : Double) : Double := result x x.toFloat.sqrt

/-- The fractional part, with the sign of the number. -/
def fract (x : Double) : Double := x - x.trunc

/-- The largest integer not above the number. -/
def floor (x : Double) : Double :=
  if x.trunc = x then x
  else if x.negative then x.trunc - one
  else x.trunc

/-- A natural power, by repeated squaring from the lowest bit of the exponent.

Every product is rounded, so the order of the products is part of the result. -/
def powNat (x : Double) (n : Nat) : Double :=
  go one x n
where
  /-- `r · b ^ n`. -/
  go (r b : Double) (n : Nat) : Double :=
    let r := if n % 2 = 1 then r * b else r
    if h : n / 2 = 0 then r else go r (b * b) (n / 2)
  termination_by n
  decreasing_by omega

/-- An integer power; a negative one is the reciprocal of the positive one. -/
def powInt (x : Double) (n : Int) : Double :=
  if n < 0 then one / x.powNat n.natAbs else x.powNat n.natAbs

/-! ## The hypotenuse -/

/-- A power of two. -/
def twoPow (e : Int) : Double := ofScaled false 1 e

/-- The root of `x² + y²` for `0 ≤ y ≤ x`, where neither square is out of range.

The root `h` of the rounded sum is off by about `(h² - x² - y²) / 2h`, and this is
subtracted.  The difference of the squares is put together from small terms, so that the
leading digits cancel before anything is rounded. -/
def correctedRoot (x y : Double) : Double :=
  let h := (x * x + y * y).sqrt
  if (two * y).less h then
    let e := h - x
    h - (two * e * (x - two * y) + ((four * e - y) * y + e * e)) / (two * h)
  else
    let e := h - y
    h - (x * (two * e - x) + (e - two * (x - y)) * e) / (two * h)

/-- The hypotenuse over legs `0 ≤ y ≤ x`.  A leg that is lost beside the other is added to it,
and legs whose squares would be out of range are brought to a medium size first. -/
def hypotOrdered (x y : Double) : Double :=
  if (twoPow 511).less x then
    if (x * twoPow (-54)).less y then
      correctedRoot (x * twoPow (-600)) (y * twoPow (-600)) / twoPow (-600)
    else x + y
  else if y.less (twoPow (-459)) then
    if x.less (y / twoPow (-54)) then
      correctedRoot (x / twoPow (-600)) (y / twoPow (-600)) * twoPow (-600)
    else x + y
  else if (x * twoPow (-54)).less y then correctedRoot x y
  else x + y

/-- The length of the hypotenuse.  An infinite leg makes it infinite, whatever the other leg
is. -/
def hypot (x y : Double) : Double :=
  if x.isInfinite || y.isInfinite then infinity
  else if x.isNaN || y.isNaN then x.nanOf₂ y
  else if x.abs.less y.abs then hypotOrdered y.abs x.abs
  else hypotOrdered x.abs y.abs

/-! ## Functions of the machine -/

def sin (x : Double) : Double := if x.isFinite then result x x.toFloat.sin else x.nanOf
def cos (x : Double) : Double := if x.isFinite then result x x.toFloat.cos else x.nanOf
def tan (x : Double) : Double := if x.isFinite then result x x.toFloat.tan else x.nanOf
def asin (x : Double) : Double := result x x.toFloat.asin
def acos (x : Double) : Double := result x x.toFloat.acos
def atan (x : Double) : Double := result x x.toFloat.atan
def sinh (x : Double) : Double := result x x.toFloat.sinh
def cosh (x : Double) : Double := result x x.toFloat.cosh
def exp (x : Double) : Double := result x x.toFloat.exp
def log (x : Double) : Double := result x x.toFloat.log
def log10 (x : Double) : Double := result x x.toFloat.log10
def pow (x y : Double) : Double := result₂ x y (Float.pow x.toFloat y.toFloat)

/-- The angle of the point `(x, y)`, seen from the origin. -/
def atan2 (y x : Double) : Double := result₂ x y (Float.atan2 y.toFloat x.toFloat)

end Double

end RpnCalculator
