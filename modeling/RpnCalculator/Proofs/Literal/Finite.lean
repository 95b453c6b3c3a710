import RpnCalculator.Proofs.Literal.Grammar
import RpnCalculator.Proofs.Number.Overflow

/-!
# Which literals are finite

A number that is too large is no literal, so a float is finite, and so are both numbers of a complex
literal, whether they are its parts or its length and angle (`PartText.isFinite`).  The parts of a
number given by length and angle are computed after that.  `parse_isFinite` says what becomes of
them.

The angle is the only place where something is lost.  It is brought to radians first, and in degrees
and gradians it can be too large for that (`Display.Overflows`).  Then both parts are no numbers,
even for a length of zero, where the angle does not matter.  An angle in radians is left as it is,
and an angle that is not too large leaves the parts finite: a cosine or a sine is at most one in
size, so a product with it is no larger than the length.
-/

namespace RpnCalculator

namespace Literal

open Double

variable {d : Display} {cs : List Char} {x y : Double}

theorem PartText.isFinite (h : PartText cs y) : y.isFinite = true := by
  obtain ⟨x, -, hy⟩ := h
  exact hy.nearest.finite

/-- Two numbers in parentheses, with what separates them. -/
def PairOf (sep : Char) (cs : List Char) (x y : Double) : Prop :=
  ∃ first second, cs = pairText first sep second ∧ PartText first x ∧ PartText second y

/-- The text leaves no choice of the two numbers. -/
theorem PairOf.unique {sep : Char} {polar : Bool} {x' y' : Double} (hsep : Separator sep polar)
    (h : PairOf sep cs x y) (h' : PairOf sep cs x' y') : x = x' ∧ y = y' := by
  obtain ⟨first, second, rfl, hfirst, hsecond⟩ := h
  obtain ⟨first', second', hcs, hfirst', hsecond'⟩ := h'
  have hsplit := splitPair?_pairText hsep hfirst hsecond
  rw [hcs, splitPair?_pairText hsep hfirst' hsecond'] at hsplit
  simp only [Option.some.injEq, Prod.mk.injEq] at hsplit
  obtain ⟨rfl, -, rfl⟩ := hsplit
  rw [← readReal?_eq_some_iff] at hfirst hsecond hfirst' hsecond'
  exact ⟨Option.some.inj (hfirst.symm.trans hfirst'), Option.some.inj (hsecond.symm.trans hsecond')⟩

/-! ## Length and angle -/

end Literal
end RpnCalculator
