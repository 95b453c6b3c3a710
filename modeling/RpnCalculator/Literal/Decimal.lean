import RpnCalculator.Number.Rounding
import RpnCalculator.Text.Numeral

/-!
# Decimal literals

A decimal is an optional sign, digits with at most one point among them, and an optional
exponent.  There must be a digit besides those of the exponent, and an exponent must have
one.  `Decimal.read?` takes such a text apart; the parts, put together again, are the
text, except that a plus sign leaves no trace.

The value is rounded once, from the exact decimal, so that no literal is read worse than
the format allows.
-/

namespace RpnCalculator

/-- A decimal, taken apart. -/
structure Decimal where
  negative : Bool
  /-- Digits before the point. -/
  whole : List Char
  point : Bool
  /-- Digits after the point. -/
  fraction : List Char
  exponent : Option Int
  deriving DecidableEq, Repr

namespace Decimal

/-- What follows the digits: nothing, or an exponent. -/
def readExponent? : List Char → Option (Option Int)
  | [] => some none
  | c :: cs => if c = 'e' ∨ c = 'E' then (Text.readInteger? cs).map some else none

/-- Take a decimal apart. -/
def read? (cs : List Char) : Option Decimal :=
  let (negative, cs) := Text.splitSign cs
  let whole := cs.takeWhile Text.isDigit
  let rest := cs.dropWhile Text.isDigit
  let (point, fraction, rest) :=
    match rest with
    | '.' :: rest => (true, rest.takeWhile Text.isDigit, rest.dropWhile Text.isDigit)
    | rest => (false, [], rest)
  if whole.isEmpty && fraction.isEmpty then none
  else (readExponent? rest).map fun e => ⟨negative, whole, point, fraction, e⟩

/-- All digits, as one number. -/
def coefficient (x : Decimal) : Nat := Text.readDecimal (x.whole ++ x.fraction)

/-- The power of ten that scales the coefficient. -/
def scale (x : Decimal) : Int := x.exponent.getD 0 - x.fraction.length

/-- The nearest double, if it is finite. -/
def toDouble? (x : Decimal) : Option Double :=
  let y := Double.ofDecimal x.negative x.coefficient
    (x.whole.length + x.fraction.length) x.scale
  if y.isFinite then some y else none

end Decimal

end RpnCalculator
