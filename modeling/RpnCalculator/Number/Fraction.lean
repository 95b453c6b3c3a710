/-!
# Fractions

A `Fraction` is a numerator and a denominator as they are written, in lowest terms or
not; a stored object can hold any two integers with a denominator other than zero.
What the calculator computes with is the number it stands for, and that is a `Rat`.

So every operation on fractions is `ofRat` of an operation on `toRat`.  A result is in
lowest terms because `Rat` is, and on fractions in lowest terms the two directions are
inverse to each other (`toRat_ofRat`, `ofRat_toRat`).
-/

namespace RpnCalculator

/-- A fraction as written. -/
structure Fraction where
  num : Int
  den : Int
  deriving DecidableEq, Inhabited, Repr

namespace Fraction

/-- The number a fraction stands for. -/
def toRat (q : Fraction) : Rat := Rat.divInt q.num q.den

/-- The fraction in lowest terms for a number. -/
def ofRat (q : Rat) : Fraction := ⟨q.num, q.den⟩

/-- Positive denominator and no common factor. -/
def Reduced (q : Fraction) : Prop := 0 < q.den ∧ Int.gcd q.num q.den = 1

instance (q : Fraction) : Decidable q.Reduced :=
  inferInstanceAs (Decidable (_ ∧ _))

theorem reduced_ofRat (q : Rat) : (ofRat q).Reduced := by
  refine ⟨?_, ?_⟩
  · have := q.den_pos
    simp only [ofRat]
    omega
  · simpa [ofRat, Int.gcd] using q.reduced

@[simp] theorem toRat_ofRat (q : Rat) : (ofRat q).toRat = q := by
  simp [toRat, ofRat]

theorem ofRat_toRat {q : Fraction} (h : q.Reduced) : ofRat q.toRat = q := by
  obtain ⟨n, d⟩ := q
  obtain ⟨hd, hg⟩ := h
  simp only at hd hg
  obtain ⟨k, rfl⟩ := Int.eq_ofNat_of_zero_le (Int.le_of_lt hd)
  have hk : k ≠ 0 := by omega
  have hc : n.natAbs.Coprime k := by simpa [Int.gcd] using hg
  have : Rat.divInt n k = ⟨n, k, hk, hc⟩ := Rat.mk_eq_divInt.symm
  simp [toRat, ofRat, this]

/-- An integer as a fraction. -/
def ofInt (n : Int) : Fraction := ⟨n, 1⟩

theorem reduced_ofInt (n : Int) : (ofInt n).Reduced := by
  simp [Reduced, ofInt]

@[simp] theorem toRat_ofInt (n : Int) : (ofInt n).toRat = n := by
  have h : ofRat n = ofInt n := by simp [ofRat, ofInt]
  rw [← h, toRat_ofRat]

/-- The integer part, toward zero. -/
def toInt (q : Fraction) : Int := q.toRat.num.tdiv q.toRat.den

end Fraction

end RpnCalculator
