import RpnCalculator.Number.Arithmetic

/-!
# Complex numbers

Complex numbers with double parts.  The operations are the textbook formulas, each
part rounded at every step and nothing scaled: `Complex.div` multiplies by the
conjugate and divides by the squared length even where the square overflows.  The
functions go through the polar form, so a result that is real in mathematics can have
a tiny imaginary part here.

The order of the roundings is part of every result.  In particular `-i` is
`(-0, -1)`, with both signs changed, and multiplying by `i` is a full complex product.
-/

namespace RpnCalculator

/-- A complex number by its rectangular parts. -/
structure Complex where
  re : Double
  im : Double
  deriving DecidableEq, Inhabited, Repr

namespace Complex

def ofReal (x : Double) : Complex := ⟨x, .zero⟩

def one : Complex := ⟨.one, .zero⟩

def i : Complex := ⟨.zero, .one⟩

/-- Whether both parts are zeros. -/
def isZero (z : Complex) : Bool := z.re.isZero && z.im.isZero

/-- Equality by size of both parts. -/
def equals (z w : Complex) : Bool := z.re.equals w.re && z.im.equals w.im

/-! ## Field operations -/

instance : Neg Complex := ⟨fun z => ⟨-z.re, -z.im⟩⟩
instance : Add Complex := ⟨fun z w => ⟨z.re + w.re, z.im + w.im⟩⟩
instance : Sub Complex := ⟨fun z w => ⟨z.re - w.re, z.im - w.im⟩⟩
instance : Mul Complex :=
  ⟨fun z w => ⟨z.re * w.re - z.im * w.im, z.re * w.im + z.im * w.re⟩⟩

/-- The square of the length. -/
def normSq (z : Complex) : Double := z.re * z.re + z.im * z.im

instance : Div Complex :=
  ⟨fun z w =>
    ⟨(z.re * w.re + z.im * w.im) / w.normSq, (z.im * w.re - z.re * w.im) / w.normSq⟩⟩

def conj (z : Complex) : Complex := ⟨z.re, -z.im⟩

def inv (z : Complex) : Complex := ⟨z.re / z.normSq, -z.im / z.normSq⟩

/-- Division of both parts by a real number. -/
def divReal (z : Complex) (x : Double) : Complex := ⟨z.re / x, z.im / x⟩

/-! ## Polar form -/

/-- The length. -/
def norm (z : Complex) : Double := z.re.hypot z.im

/-- The angle, in radians. -/
def arg (z : Complex) : Double := z.im.atan2 z.re

/-- The number with the given length and angle in radians. -/
def ofPolar (r angle : Double) : Complex := ⟨r * angle.cos, r * angle.sin⟩

/-! ## Exponentials and logarithms -/

/-- The exponential.  With an infinite real part the angle can be meaningless; then the
result is zero, or keeps the infinite part. -/
def exp (z : Complex) : Complex :=
  if z.re.isInfinite then
    if z.re.negative then
      if z.im.isFinite then ofPolar z.re.exp z.im else ⟨.zero, .zero⟩
    else if z.im.isZero then z
    else if z.im.isInfinite then ⟨z.re, .nan⟩
    else if z.im.isNaN then z
    else ofPolar z.re.exp z.im
  else if z.re.isNaN && z.im.isZero then z
  else ofPolar z.re.exp z.im

/-- The principal natural logarithm. -/
def log (z : Complex) : Complex := ⟨z.norm.log, z.arg⟩

/-- The principal common logarithm. -/
def log10 (z : Complex) : Complex := z.log.divReal .logTen

/-- A positive real number to the power `z`. -/
def realPow (base : Double) (z : Complex) : Complex :=
  ofPolar (base.pow z.re) (z.im * base.log)

/-- `z` to the power `w`, by the principal logarithm of `z`. -/
def pow (z w : Complex) : Complex := if w.isZero then one else (w * z.log).exp

/-- The principal square root.  On the axes it is found without angles, and the sign of
a zero part decides on which side of the cut the number lies. -/
def sqrt (z : Complex) : Complex :=
  if z.im.isZero then
    if z.re.negative then
      ⟨.zero, if z.im.negative then -(-z.re).sqrt else (-z.re).sqrt⟩
    else ⟨z.re.sqrt, z.im⟩
  else if z.re.isZero then
    let x := (z.im.abs / .two).sqrt
    ⟨x, if z.im.negative then -x else x⟩
  else ofPolar z.norm.sqrt (z.arg / .two)

/-! ## Trigonometric functions -/

def cos (z : Complex) : Complex :=
  ⟨z.re.cos * z.im.cosh, -(z.re.sin) * z.im.sinh⟩

def sin (z : Complex) : Complex :=
  ⟨z.re.sin * z.im.cosh, z.re.cos * z.im.sinh⟩

def tan (z : Complex) : Complex :=
  let a := z.re + z.re
  let b := z.im + z.im
  divReal ⟨a.sin, b.sinh⟩ (a.cos + b.cosh)

def asin (z : Complex) : Complex := -i * ((one - z * z).sqrt + i * z).log

def acos (z : Complex) : Complex := -i * (i * (one - z * z).sqrt + z).log

/-- The arctangent, infinite at the two points where it has no value. -/
def atan (z : Complex) : Complex :=
  if z.equals i then ⟨.zero, .infinity⟩
  else if z.equals (-i) then ⟨.zero, -.infinity⟩
  else ((one + i * z).log - (one - i * z).log) / ((one + one) * i)

end Complex

end RpnCalculator
