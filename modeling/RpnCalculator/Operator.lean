/-!
# Operators

The names of the operations on values, and the words with which a message says that
one of them is not defined for an operand.  What the operations do is in
`Value.Arithmetic` and `Value.Functions`.
-/

namespace RpnCalculator

/-- An operation on two values. -/
inductive BinaryOperator where
  | add
  | sub
  | mul
  | div
  | mod
  | pow
  | eq
  | ne
  | lt
  | le
  | gt
  | ge
  | and
  | or
  | xor
  deriving DecidableEq, Repr

namespace BinaryOperator

/-- What the operator does to its operands, as a message puts it. -/
def description : BinaryOperator → String
  | .add => "add"
  | .sub => "subtract"
  | .mul => "multiply"
  | .div => "divide"
  | .mod => "take the modulus of"
  | .pow => "raise"
  | .eq | .ne => "test equality of"
  | .lt | .le | .gt | .ge => "compare"
  | .and | .or | .xor => "combine the bits of"

/-- Whether the operator asks about equality. -/
def isEquality : BinaryOperator → Bool
  | .eq | .ne => true
  | _ => false

/-- Whether the operator asks which operand is larger. -/
def isOrdering : BinaryOperator → Bool
  | .lt | .le | .gt | .ge => true
  | _ => false

/-- Whether a comparison holds of operands in the given order; no other operator does. -/
def holds : BinaryOperator → Ordering → Bool
  | .eq, o => o.isEq
  | .ne, o => o.isNe
  | .lt, o => o.isLT
  | .le, o => o.isLE
  | .gt, o => o.isGT
  | .ge, o => o.isGE
  | _, _ => false

end BinaryOperator

/-- An operation on one value. -/
inductive UnaryOperator where
  | abs
  | acos
  | asin
  | atan
  | conj
  | cos
  | exp
  | exp10
  | frac
  | intPart
  | im
  | inv
  | ln
  | log
  | neg
  | re
  | sign
  | sin
  | sq
  | sqrt
  | tan
  | shiftLeft
  | shiftRight
  | rotateLeft
  | rotateRight
  deriving DecidableEq, Repr

namespace UnaryOperator

/-- What the operator does to its operand, as a message puts it. -/
def description : UnaryOperator → String
  | .abs => "take the absolute value of"
  | .acos => "take the arccosine of"
  | .asin => "take the arcsine of"
  | .atan => "take the arctangent of"
  | .conj => "take the complex conjugate of"
  | .cos => "take the cosine of"
  | .exp | .exp10 => "exponentiate"
  | .frac => "take the fractional part of"
  | .intPart => "take the integer part of"
  | .im => "take the imaginary part of"
  | .inv => "invert"
  | .ln => "take the natural logarithm of"
  | .log => "take the logarithm of"
  | .neg => "negate"
  | .re => "take the real part of"
  | .sign => "find the sign of"
  | .sin => "take the sine of"
  | .sq => "square"
  | .sqrt => "take the square root of"
  | .tan => "take the tangent of"
  | .shiftLeft => "shift left"
  | .shiftRight => "shift right"
  | .rotateLeft => "rotate left"
  | .rotateRight => "rotate right"

/-- Whether an exact number has to become a float for the operation. -/
def isTranscendental : UnaryOperator → Bool
  | .acos | .asin | .atan | .cos | .sin | .tan | .exp | .exp10 | .ln | .log | .sqrt => true
  | _ => false

end UnaryOperator

/-- An operation of either sort. -/
inductive Operation where
  | binary (op : BinaryOperator)
  | unary (op : UnaryOperator)
  deriving DecidableEq, Repr

def Operation.description : Operation → String
  | .binary op => op.description
  | .unary op => op.description

end RpnCalculator
