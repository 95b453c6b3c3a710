import Mathlib.Algebra.Order.Field.Rat
import Mathlib.Data.Nat.Size
import Mathlib.Data.Rat.Lemmas
import RpnCalculator.Proofs.Value.Word

/-!
# Powers of exact numbers

A power of an integer or a rational is exact, and can be too large to be computed.  So it is
judged beforehand, from the size of its base in bits and from its exponent: a power is refused
if the product of the two is above a limit (`Bits.Oversized`).  A base of one bit is not judged,
because its powers are as small as it is.

Two functions do this, one for integers and one for rationals, and their exponents have
different bounds.  What is not refused is the power of a rational number in both
(`integerPow_of_granted`, `rationalPow_of_granted`); the function on integers writes it as an
integer unless the exponent is negative.

## The estimate

It is not clear from the code that the judgement keeps powers small, because it looks at the
base alone.  `size_pow_le` says that it does: a power has at most as many bits as the product
says.  There are two exceptions, a base of one bit and an exponent of zero, and the powers of
these have one bit.  A negative exponent exchanges numerator and denominator, so a bound for
both is a bound for the reciprocal as well (`ratSize_zpow_le`).
-/

namespace RpnCalculator

/-! ## Sizes -/

namespace Bits

/-- The size of an integer is that of its absolute value. -/
theorem size_eq_natAbs_size (n : Int) : size n = n.natAbs.size := by
  unfold size
  split
  · rename_i h
    rw [h, Int.natAbs_zero, Nat.size_zero]
  · rename_i h
    have hne : n.natAbs ≠ 0 := Int.natAbs_ne_zero.mpr h
    refine Nat.le_antisymm ?_ ?_
    · exact Nat.lt_size.mpr (Nat.log2_self_le hne)
    · exact Nat.size_le.mpr Nat.lt_log2_self

/-- A power that is estimated to have more bits than a limit. -/
def Oversized (limit bits exponent : Nat) : Prop := 2 ≤ bits ∧ limit < bits * exponent

instance (limit bits exponent : Nat) : Decidable (Oversized limit bits exponent) :=
  inferInstanceAs (Decidable (_ ∧ _))

variable {limit k : Nat}

/-- What is not too much for a size is not too much for a smaller one. -/
theorem Oversized.mono {fewer bits : Nat} (h : Oversized limit fewer k) (hle : fewer ≤ bits) :
    Oversized limit bits k :=
  ⟨h.1.trans hle, h.2.trans_le (Nat.mul_le_mul_right k hle)⟩

/-- **The estimate is right**: a power has no more bits than the limit if it is not estimated
to have more. -/
theorem size_pow_le (hlimit : 1 ≤ limit) {m : Nat} (h : ¬Oversized limit m.size k) :
    (m ^ k).size ≤ limit := by
  have hone : 1 < 2 ^ limit := Nat.one_lt_two_pow (by omega)
  rw [Nat.size_le]
  rcases Nat.lt_or_ge m.size 2 with hm | hm
  · have hle : m ≤ 1 := by
      have hlt := Nat.size_le.mp (Nat.le_of_lt_succ hm)
      omega
    calc m ^ k ≤ 1 ^ k := Nat.pow_le_pow_left hle k
      _ = 1 := Nat.one_pow k
      _ < 2 ^ limit := hone
  · have hbits : m.size * k ≤ limit := by
      rw [← Nat.not_lt]
      exact fun hlt => h ⟨hm, hlt⟩
    rcases Nat.eq_zero_or_pos k with rfl | hk
    · rwa [Nat.pow_zero]
    · calc m ^ k < (2 ^ m.size) ^ k := Nat.pow_lt_pow_left (Nat.lt_size_self m) hk.ne'
        _ = 2 ^ (m.size * k) := (Nat.pow_mul 2 m.size k).symm
        _ ≤ 2 ^ limit := Nat.pow_le_pow_right (by decide) hbits

/-- The bits of a rational number: of its numerator or its denominator, whichever has more. -/
def ratSize (r : Rat) : Nat := max r.num.natAbs.size r.den.size

/-- The denominator of an integer has one bit. -/
theorem ratSize_intCast (n : Int) : ratSize n = max n.natAbs.size 1 := by
  rw [ratSize, Rat.num_intCast, Rat.den_intCast, Nat.size_one]

/-- The parts of a reciprocal are those of the number. -/
theorem ratSize_inv (r : Rat) : ratSize r⁻¹ = ratSize r := by
  by_cases hr : r = 0
  · rw [hr, inv_zero]
  · have hsign : r.num.sign.natAbs = 1 := Int.natAbs_sign_of_ne_zero (Rat.num_ne_zero.mpr hr)
    rw [ratSize, ratSize, Rat.num_inv, Rat.den_inv_of_ne_zero hr, Int.natAbs_mul, hsign,
      Nat.one_mul, Int.natAbs_natCast, max_comm]

theorem zpow_of_nonneg {r : Rat} {e : Int} (he : 0 ≤ e) : r ^ e = r ^ e.natAbs := by
  rw [← zpow_natCast, Int.natAbs_of_nonneg he]

theorem zpow_of_neg {r : Rat} {e : Int} (he : ¬0 ≤ e) : r ^ e = (r ^ e.natAbs)⁻¹ := by
  have hneg : e = -(e.natAbs : Int) := by omega
  rw [hneg, zpow_neg, zpow_natCast, Int.natAbs_neg, Int.natAbs_natCast]

/-- **So it is for rational numbers**, also if the exponent is negative. -/
theorem ratSize_zpow_le (hlimit : 1 ≤ limit) {r : Rat} {e : Int}
    (h : ¬Oversized limit (ratSize r) e.natAbs) : ratSize (r ^ e) ≤ limit := by
  have hpow : ratSize (r ^ e.natAbs) ≤ limit := by
    rw [ratSize, Rat.num_pow, Rat.den_pow, Int.natAbs_pow]
    exact max_le (size_pow_le hlimit fun hnum => h (hnum.mono (le_max_left ..)))
      (size_pow_le hlimit fun hden => h (hden.mono (le_max_right ..)))
  by_cases he : 0 ≤ e
  · rwa [zpow_of_nonneg he]
  · rwa [zpow_of_neg he, ratSize_inv]

end Bits

/-! ## The two functions -/

namespace BinaryOperator

open Bits (Oversized ratSize)

variable {b e : Int} {p : Rat}

theorem powerTooLarge_iff {bits exponent : Nat} :
    powerTooLarge bits exponent = true ↔ Oversized maxPowerBits bits exponent := by
  rw [powerTooLarge, Bool.and_eq_true, decide_eq_true_eq, decide_eq_true_eq]
  rfl

/-- What integers are refused, and why. -/
def IntegerPowerRefused (b e : Int) : Prop :=
  2 ^ 32 ≤ e.natAbs ∨ Oversized (2 ^ 20) b.natAbs.size e.natAbs ∨ b = 0 ∧ e < 0

instance (b e : Int) : Decidable (IntegerPowerRefused b e) :=
  inferInstanceAs (Decidable (_ ∨ _))

theorem integerPow_of_refused (h : IntegerPowerRefused b e) :
    ∃ f, integerPow b e = .error f ∧ f.category = .domain := by
  unfold integerPow
  split
  · exact ⟨_, rfl, rfl⟩
  rename_i hlimit
  split
  · exact ⟨_, rfl, rfl⟩
  rename_i hsize
  rw [powerTooLarge_iff, Bits.size_eq_natAbs_size] at hsize
  rcases h with h | h | ⟨hb, he⟩
  · exact absurd h hlimit
  · exact absurd h hsize
  · rw [if_neg (Int.not_le.mpr he), if_pos hb]
    exact ⟨_, rfl, rfl⟩

/-- The power of an integer that is not refused. -/
theorem integerPow_of_granted (h : ¬IntegerPowerRefused b e) :
    integerPow b e = .ok (if 0 ≤ e then .integer (b ^ e.natAbs) else .ofRat ((b : Rat) ^ e)) := by
  simp only [IntegerPowerRefused, not_or, not_and] at h
  obtain ⟨hlimit, hsize, hzero⟩ := h
  have hbound : ¬4294967296 ≤ e.natAbs := hlimit
  have hsmall : ¬powerTooLarge (Bits.size b) e.natAbs = true := by
    rwa [powerTooLarge_iff, Bits.size_eq_natAbs_size]
  rw [integerPow, if_neg hbound, if_neg hsmall]
  by_cases he : 0 ≤ e
  · rw [if_pos he, if_pos he]
    rfl
  · have hb : b ≠ 0 := fun hb => hzero hb (Int.not_le.mp he)
    have hvalue : Rat.divInt 1 (b ^ e.natAbs) = (b : Rat) ^ e := by
      rw [Bits.zpow_of_neg he, Rat.divInt_eq_div, Int.cast_one, one_div, Int.cast_pow]
    rw [if_neg he, if_neg hb, if_neg he, ← hvalue]
    rfl

/-- What rationals are refused, and why. -/
def RationalPowerRefused (p : Rat) (e : Int) : Prop :=
  (e < -2 ^ 31 ∨ 2 ^ 31 ≤ e) ∨ Oversized (2 ^ 20) (ratSize p) e.natAbs ∨ p = 0 ∧ e < 0

instance (p : Rat) (e : Int) : Decidable (RationalPowerRefused p e) :=
  inferInstanceAs (Decidable (_ ∨ _))

/-- The size that is judged is that of the number. -/
theorem max_size_eq (p : Rat) : max (Bits.size p.num) (Bits.size p.den) = ratSize p := by
  rw [Bits.size_eq_natAbs_size, Bits.size_eq_natAbs_size, Int.natAbs_natCast, ratSize]

theorem rationalPow_of_refused (h : RationalPowerRefused p e) :
    ∃ f, rationalPow p e = .error f ∧ f.category = .domain := by
  unfold rationalPow
  split
  · exact ⟨_, rfl, rfl⟩
  rename_i hlimit
  split
  · exact ⟨_, rfl, rfl⟩
  rename_i hsize
  rw [powerTooLarge_iff, max_size_eq] at hsize
  rcases h with h | h | ⟨hp, he⟩
  · exact absurd h.symm hlimit
  · exact absurd h hsize
  · rw [if_neg (Int.not_le.mpr he), if_pos hp]
    exact ⟨_, rfl, rfl⟩

/-- The power of a rational that is not refused. -/
theorem rationalPow_of_granted (h : ¬RationalPowerRefused p e) :
    rationalPow p e = .ok (.ofRat (p ^ e)) := by
  simp only [RationalPowerRefused, not_or, not_and] at h
  obtain ⟨⟨hlow, hhigh⟩, hsize, hzero⟩ := h
  have hlimit : ¬(2147483648 ≤ e ∨ e < -2147483648) := fun h => h.elim hhigh hlow
  have hsmall : ¬powerTooLarge (max (Bits.size p.num) (Bits.size p.den)) e.natAbs = true := by
    rwa [powerTooLarge_iff, max_size_eq]
  rw [rationalPow, if_neg hlimit, if_neg hsmall]
  by_cases he : 0 ≤ e
  · rw [if_pos he, Bits.zpow_of_nonneg he]
    rfl
  · have hp : p ≠ 0 := fun hp => hzero hp (Int.not_le.mp he)
    rw [if_neg he, if_neg hp, Bits.zpow_of_neg he]
    rfl

/-! ## Powers of values -/

theorem apply_rationals {d : Display} {op : BinaryOperator} (heq : op.isEquality = false)
    (hord : op.isOrdering = false) (p r : Fraction) :
    op.apply d (.rational p) (.rational r) = op.onRationals p.toRat r.toRat := by
  have hmet : op.apply d (.rational p) (.rational r) = op.combine d (.rational p) (.rational r) :=
    apply_of_kind (by simp [Value.kind]) rfl
  rw [hmet, combine, heq, hord]
  rfl

/-- A rational to a power that is an integer. -/
theorem apply_pow_rational (d : Display) (p : Fraction) {r : Fraction} {n : Int}
    (hr : r.toRat = n) :
    BinaryOperator.pow.apply d (.rational p) (.rational r) = rationalPow p.toRat n := by
  rw [apply_rationals rfl rfl, hr, onRationals, if_pos (Rat.den_intCast n), Rat.num_intCast]

/-- **A power is refused for its size alone, or is exact.**  On integers and on rationals it
fails exactly when the exponent is out of its bounds, when the base has two bits or more and
the power is estimated to be above the limit, or when zero is inverted.  Otherwise it is the
power of the number that the base stands for, in lowest terms if it is a rational, and has no
more bits than the limit. -/
theorem exact_powers (d : Display) :
    (∀ b e : Int,
      if 2 ^ 32 ≤ e.natAbs ∨ (2 ≤ b.natAbs.size ∧ 2 ^ 20 < b.natAbs.size * e.natAbs) ∨
          (b = 0 ∧ e < 0) then
        ∃ f, BinaryOperator.pow.apply d (.integer b) (.integer e) = .error f ∧
          f.category = .domain
      else if 0 ≤ e then
        BinaryOperator.pow.apply d (.integer b) (.integer e) = .ok (.integer (b ^ e.natAbs)) ∧
          (b ^ e.natAbs).natAbs.size ≤ 2 ^ 20
      else
        ∃ q : Fraction, BinaryOperator.pow.apply d (.integer b) (.integer e) = .ok (.rational q) ∧
          q.Reduced ∧ q.toRat = (b : Rat) ^ e ∧
          q.num.natAbs.size ≤ 2 ^ 20 ∧ q.den.natAbs.size ≤ 2 ^ 20) ∧
    ∀ p r : Fraction, ∀ n : Int, p.Reduced → r.toRat = n →
      if (n < -2 ^ 31 ∨ 2 ^ 31 ≤ n) ∨
          (2 ≤ max p.num.natAbs.size p.den.natAbs.size ∧
            2 ^ 20 < max p.num.natAbs.size p.den.natAbs.size * n.natAbs) ∨
          (p.toRat = 0 ∧ n < 0) then
        ∃ f, BinaryOperator.pow.apply d (.rational p) (.rational r) = .error f ∧
          f.category = .domain
      else
        ∃ q : Fraction, BinaryOperator.pow.apply d (.rational p) (.rational r) = .ok (.rational q) ∧
          q.Reduced ∧ q.toRat = p.toRat ^ n ∧
          q.num.natAbs.size ≤ 2 ^ 20 ∧ q.den.natAbs.size ≤ 2 ^ 20 := by
  have hfits {s : Rat} {e : Int} (h : ¬Oversized (2 ^ 20) (ratSize s) e.natAbs) :
      (Fraction.ofRat (s ^ e)).num.natAbs.size ≤ 2 ^ 20 ∧
        (Fraction.ofRat (s ^ e)).den.natAbs.size ≤ 2 ^ 20 :=
    max_le_iff.mp (Bits.ratSize_zpow_le (by decide) h)
  constructor
  · intro b e
    rw [apply_integers rfl rfl, onIntegers]
    split
    · rename_i h
      exact integerPow_of_refused h
    rename_i h
    have hsize : ¬Oversized (2 ^ 20) b.natAbs.size e.natAbs := fun hlarge => h (.inr (.inl hlarge))
    rw [integerPow_of_granted h]
    split
    · rw [Int.natAbs_pow]
      exact ⟨rfl, Bits.size_pow_le (by decide) hsize⟩
    · refine ⟨_, rfl, Fraction.reduced_ofRat _, Fraction.toRat_ofRat _, hfits ?_⟩
      rw [Bits.ratSize_intCast]
      -- the one bit of a denominator does not make an estimate too large
      rintro ⟨htwo, hlarge⟩
      have hbits : max b.natAbs.size 1 = b.natAbs.size := max_eq_left (by omega)
      rw [hbits] at htwo hlarge
      exact hsize ⟨htwo, hlarge⟩
  · intro p r n hp hr
    have hsize : ratSize p.toRat = max p.num.natAbs.size p.den.natAbs.size := by
      conv_rhs => rw [← Fraction.ofRat_toRat hp]
      rfl
    rw [apply_pow_rational d p hr, ← hsize]
    split
    · rename_i h
      exact rationalPow_of_refused h
    · rename_i h
      rw [rationalPow_of_granted h]
      exact ⟨_, rfl, Fraction.reduced_ofRat _, Fraction.toRat_ofRat _,
        hfits fun hlarge => h (.inr (.inl hlarge))⟩

/-- The third power of the reciprocal of minus two thirds. -/
theorem exact_powers_reciprocal :
    ((⟨-2, 3⟩ : Fraction).Reduced ∧ (⟨-3, 1⟩ : Fraction).toRat = (-3 : Int)) ∧
    ∃ q : Fraction, BinaryOperator.pow.apply default (.rational ⟨-2, 3⟩) (.rational ⟨-3, 1⟩) =
        .ok (.rational q) ∧ q.Reduced ∧ q.toRat = -27 / 8 := by
  have hp : (⟨-2, 3⟩ : Fraction).Reduced := by decide
  have hr : (⟨-3, 1⟩ : Fraction).toRat = (-3 : Int) := Fraction.toRat_ofInt (-3)
  have hvalue : (⟨-2, 3⟩ : Fraction).toRat = -2 / 3 := by
    rw [Fraction.toRat, Rat.divInt_eq_div]
    norm_num
  have hsize : max (2 : Nat).size (3 : Nat).size ≤ 2 :=
    max_le (Nat.size_le.mpr (by decide)) (Nat.size_le.mpr (by decide))
  have key := (exact_powers default).2 ⟨-2, 3⟩ ⟨-3, 1⟩ (-3) hp hr
  rw [if_neg] at key
  · obtain ⟨q, hq, hreduced, hpower, -⟩ := key
    refine ⟨⟨hp, hr⟩, q, hq, hreduced, ?_⟩
    rw [hpower, hvalue]
    norm_num
  · rw [hvalue]
    rintro ((h | h) | ⟨-, h⟩ | ⟨h, -⟩)
    · exact absurd h (by decide)
    · exact absurd h (by decide)
    · have hle := Nat.mul_le_mul_right 3 hsize
      exact absurd (h.trans_le hle) (by decide)
    · norm_num at h

end BinaryOperator
end RpnCalculator
