import RpnCalculator.Value.Conversion
import RpnCalculator.Number.Bits

/-!
# Operations on one value

`UnaryOperator.apply` is a function for each kind of number, two operations on vectors,
one on matrices, and nothing on the other kinds.

* Words stay words: the operations of arithmetic are done modulo the number of words,
  and shifts and rotations move bits within the width in force.
* Integers and rationals stay exact where the result is exact.  A square root is exact
  when the number is a square; other roots, and the functions of analysis, are taken of
  the nearest float.
* A logarithm or a root of a negative float is complex.
* Angles of real functions are in the unit in force.  Complex functions know only
  radians.
-/

namespace RpnCalculator

namespace UnaryOperator

/-- The operation has no result for this operand, although it is defined for its kind. -/
def outside (f : DomainFault) : Except Fault Value := .error (.domain f)

/-- The operation is not defined for the kind. -/
def unsupported (op : UnaryOperator) (k : Kind) : Except Fault Value :=
  .error (.unsupported (.unary op) k)

/-! ## Words -/

/-- An operation on the visible part of a word. -/
def onWord (d : Display) (op : UnaryOperator) (b : Nat) : Except Fault Value :=
  match op with
  | .abs | .conj | .re | .intPart => .ok (.ofWord d b)
  | .im | .frac => .ok (.ofWord d 0)
  | .neg => .ok (.ofWord d (Bits.subMod d.modulus 0 b))
  | .sign => .ok (.ofWord d (if b = 0 then 0 else 1))
  | .sq => .ok (.ofWord d (b * b))
  | .shiftLeft => .ok (.ofWord d (2 * b))
  | .shiftRight => .ok (.ofWord d (b / 2))
  | .rotateLeft => .ok (.ofWord d (Bits.rotateLeft d.width b))
  | .rotateRight => .ok (.ofWord d (Bits.rotateRight d.width b))
  | op => op.unsupported .binary

/-! ## Complex numbers and floats -/

def onComplex (op : UnaryOperator) (z : Complex) : Except Fault Value :=
  match op with
  | .abs => .ok (.float z.norm)
  | .re => .ok (.float z.re)
  | .im => .ok (.float z.im)
  | .acos => .ok (.complex z.acos)
  | .asin => .ok (.complex z.asin)
  | .atan => .ok (.complex z.atan)
  | .conj => .ok (.complex z.conj)
  | .cos => .ok (.complex z.cos)
  | .sin => .ok (.complex z.sin)
  | .tan => .ok (.complex z.tan)
  | .exp => .ok (.complex z.exp)
  | .exp10 => .ok (.complex (.realPow .ten z))
  | .ln => if z.isZero then outside .logarithmOfZero else .ok (.complex z.log)
  | .log => if z.isZero then outside .logarithmOfZero else .ok (.complex z.log10)
  | .inv => if z.isZero then outside .divisionByZero else .ok (.complex z.inv)
  | .neg => .ok (.complex (-z))
  | .sign => .ok (.complex (if z.isZero then z else z.divReal z.norm))
  | .sq => .ok (.complex (z * z))
  | .sqrt => .ok (.complex z.sqrt)
  | op => op.unsupported .complex

/-- A function of a float that leaves the real numbers below zero. -/
def orComplex (op : UnaryOperator) (x : Double) (f : Double → Double) : Except Fault Value :=
  if x.less .zero then op.onComplex (.ofReal x) else .ok (.float (f x))

/-- An inverse function of the sine or the cosine. -/
def onUnitInterval (d : Display) (x : Double) (f : Double → Double) : Except Fault Value :=
  if x.isNaN || x.less (-.one) || Double.one.less x then outside .outsideUnitInterval
  else .ok (.float (d.ofRadians (f x)))

def onFloat (d : Display) (op : UnaryOperator) (x : Double) : Except Fault Value :=
  match op with
  | .abs => .ok (.float x.abs)
  | .acos => onUnitInterval d x .acos
  | .asin => onUnitInterval d x .asin
  | .atan => .ok (.float (d.ofRadians x.atan))
  | .conj | .re => .ok (.float x)
  | .im => .ok (.float .zero)
  | .cos => .ok (.float (d.toRadians x).cos)
  | .sin => .ok (.float (d.toRadians x).sin)
  | .tan => .ok (.float (d.toRadians x).tan)
  | .exp => .ok (.float x.exp)
  | .exp10 => .ok (.float (Double.ten.pow x))
  | .frac => .ok (.float x.fract)
  | .intPart => .ok (.float x.trunc)
  | .inv => if x.isZero then outside .divisionByZero else .ok (.float (.one / x))
  | .ln => if x.isZero then outside .logarithmOfZero else op.orComplex x .log
  | .log => if x.isZero then outside .logarithmOfZero else op.orComplex x .log10
  | .neg => .ok (.float (-x))
  | .sign =>
    .ok (.float (if Double.zero.less x then .one else if x.less .zero then -.one else .zero))
  | .sq => .ok (.float (x * x))
  | .sqrt => op.orComplex x .sqrt
  | op => op.unsupported .float

/-! ## Exact numbers -/

def onInteger (d : Display) (op : UnaryOperator) (n : Int) : Except Fault Value :=
  match op with
  | .abs => .ok (.integer n.natAbs)
  | .conj | .re | .intPart => .ok (.integer n)
  | .im | .frac => .ok (.integer 0)
  | .neg => .ok (.integer (-n))
  | .sign => .ok (.integer n.sign)
  | .sq => .ok (.integer (n * n))
  | .inv => if n = 0 then outside .divisionByZero else .ok (.ofRat (Rat.divInt 1 n))
  | .sqrt =>
    let r := Nat.sqrt n.natAbs
    if 0 ≤ n ∧ r * r = n.natAbs then .ok (.integer r) else op.onFloat d (.ofInt n)
  | op => if op.isTranscendental then op.onFloat d (.ofInt n) else op.unsupported .integer

def onRational (d : Display) (op : UnaryOperator) (q : Rat) : Except Fault Value :=
  match op with
  | .abs => .ok (.ofRat (if q.num < 0 then -q else q))
  | .conj | .re => .ok (.ofRat q)
  | .im => .ok (.ofRat 0)
  | .frac => .ok (.ofRat (q - (q.num.tdiv q.den : Int)))
  | .intPart => .ok (.ofRat (q.num.tdiv q.den : Int))
  | .neg => .ok (.ofRat (-q))
  | .sign => .ok (.integer q.num.sign)
  | .sq => .ok (.ofRat (q * q))
  | .inv => if q = 0 then outside .divisionByZero else .ok (.ofRat q.inv)
  | .sqrt =>
    let r := Nat.sqrt q.num.natAbs
    let s := Nat.sqrt q.den
    if 0 ≤ q.num ∧ r * r = q.num.natAbs ∧ s * s = q.den then .ok (.ofRat (Rat.divInt r s))
    else op.onFloat d (.ofRat q)
  | op => if op.isTranscendental then op.onFloat d (.ofRat q) else op.unsupported .rational

/-! ## All values -/

/-- The float in the result of an operation. -/
def floatOf (d : Display) (v : Value) : Except Fault Double :=
  match v.convert d .float with
  | .ok (.float x) => .ok x
  | .ok w => .error (.noConversion w.kind .float)
  | .error f => .error f

mutual

/-- Apply an operator to a value. -/
def apply (d : Display) (op : UnaryOperator) : Value → Except Fault Value
  | .binary bits => op.onWord d (d.word bits)
  | .complex z => op.onComplex z
  | .float x => op.onFloat d x
  | .integer n => op.onInteger d n
  | .rational q => op.onRational d q.toRat
  | .vector items =>
    match op with
    | .neg => (negateItems d items).map .vector
    | .abs => (sumOfSquares d .zero items).map fun s => .float s.sqrt
    | op => op.unsupported .vector
  | .matrix rows =>
    match op with
    | .neg => (negateRows d rows).map .matrix
    | op => op.unsupported .matrix
  | v => op.unsupported v.kind
termination_by structural v => v

def negateItems (d : Display) : List Value → Except Fault (List Value)
  | [] => .ok []
  | v :: vs =>
    match apply d .neg v with
    | .error f => .error f
    | .ok w => (negateItems d vs).map (w :: ·)
termination_by structural vs => vs

def negateRows (d : Display) : List (List Value) → Except Fault (List (List Value))
  | [] => .ok []
  | row :: rows =>
    match negateItems d row with
    | .error f => .error f
    | .ok out => (negateRows d rows).map (out :: ·)
termination_by structural rows => rows

/-- Add the squares of the magnitudes of items to a sum. -/
def sumOfSquares (d : Display) (sum : Double) : List Value → Except Fault Double
  | [] => .ok sum
  | v :: vs =>
    match apply d .abs v with
    | .error f => .error f
    | .ok w =>
      match floatOf d w with
      | .error f => .error f
      | .ok m => sumOfSquares d (sum + m * m) vs
termination_by structural vs => vs

end

section

variable (d : Display)

theorem negateItems_cons (v : Value) (vs : List Value) :
    negateItems d (v :: vs) =
      UnaryOperator.neg.apply d v >>= fun w => (negateItems d vs).map (w :: ·) := by
  rw [negateItems]
  cases UnaryOperator.neg.apply d v <;> rfl

theorem negateRows_cons (row : List Value) (rows : List (List Value)) :
    negateRows d (row :: rows) =
      negateItems d row >>= fun out => (negateRows d rows).map (out :: ·) := by
  rw [negateRows]
  cases negateItems d row <;> rfl

theorem sumOfSquares_cons (sum : Double) (v : Value) (vs : List Value) :
    sumOfSquares d sum (v :: vs) =
      UnaryOperator.abs.apply d v >>= fun w =>
        floatOf d w >>= fun m => sumOfSquares d (sum + m * m) vs := by
  rw [sumOfSquares]
  cases UnaryOperator.abs.apply d v with
  | error f => rfl
  | ok w =>
    dsimp only
    show _ = floatOf d w >>= fun m => sumOfSquares d (sum + m * m) vs
    cases floatOf d w <;> rfl

end

end UnaryOperator

end RpnCalculator
