import Mathlib.Data.Rat.Floor
import RpnCalculator.Proofs.Number.Operations
import RpnCalculator.Proofs.Number.Truncation

/-!
# Integers among the doubles

An integer of up to 53 bits is a double, so whatever is rounded to it is exact
(`IsRounding.value_eq_intCast`).  This is what the integer part relies on: below zero it takes one
from the truncated number, and the difference is again such an integer (`toInt?_floor`).
-/

namespace RpnCalculator

namespace Double

variable {x : Double}

/-! ## Signs and values -/

theorem value_nonpos (h : x.negative = true) : x.value ≤ 0 := by
  rw [value, if_pos h]
  exact neg_nonpos.mpr (size_nonneg _)

theorem value_nonneg (h : ¬x.negative = true) : 0 ≤ x.value := by
  rw [value, if_neg h]
  exact size_nonneg _

theorem abs_value (x : Double) : |x.value| = size x.magnitude :=
  (abs_signed x.negative _).trans (abs_of_nonneg (size_nonneg _))

theorem abs_value_pos (h0 : x.significand ≠ 0) : 0 < |x.value| := by
  have hpos : (0 : Rat) < x.significand := by exact_mod_cast Nat.pos_of_ne_zero h0
  rw [abs_value, size_magnitude]
  positivity

/-! ## Integers that are doubles -/

/-- A natural number of up to 53 bits is shifted until it has all of them. -/
theorem exists_size_eq {n : Nat} (hn : n < 2 ^ 53) : ∃ k < infinityMagnitude, size k = n := by
  rcases Nat.eq_zero_or_pos n with rfl | hpos
  · exact ⟨0, by decide, by simp [size]⟩
  obtain ⟨i, hi⟩ : ∃ i, n.log2 + i = 52 := by
    have := (Nat.log2_lt hpos.ne').mpr hn
    exact ⟨52 - n.log2, by omega⟩
  obtain ⟨e, he⟩ : ∃ e, e + i = 1074 := ⟨1074 - i, by omega⟩
  have hlow : fractionSize ≤ n * 2 ^ i := by
    calc fractionSize = 2 ^ n.log2 * 2 ^ i := by rw [← pow_add, hi]; rfl
      _ ≤ n * 2 ^ i := Nat.mul_le_mul_right _ (Nat.log2_self_le hpos.ne')
  have hhigh : n * 2 ^ i < 2 * fractionSize := by
    calc n * 2 ^ i < 2 ^ (n.log2 + 1) * 2 ^ i :=
          Nat.mul_lt_mul_of_pos_right Nat.lt_log2_self (by positivity)
      _ = 2 * fractionSize := by rw [← pow_add, show n.log2 + 1 + i = 53 by omega]; rfl
  refine ⟨n * 2 ^ i + e * fractionSize, ?_, ?_⟩
  · have : e * fractionSize ≤ 1074 * fractionSize := Nat.mul_le_mul_right _ (by omega)
    unfold fractionSize infinityMagnitude at *
    omega
  · have hstep : (2 : Rat) ^ i * step e = 1 := by
      rw [step, show (e : Int) - 1074 = -(i : Int) by omega, zpow_neg, zpow_natCast]
      exact mul_inv_cancel₀ (by positivity)
    rw [size_steps hhigh.le (.inr hlow)]
    push_cast
    rw [mul_assoc, hstep, mul_one]

theorem exists_value_eq_intCast {n : Int} (hn : n.natAbs < 2 ^ 53) :
    ∃ y : Double, y.isFinite = true ∧ y.value = n := by
  obtain ⟨k, hk, hsize⟩ := exists_size_eq hn
  have hlt : k < signBit := hk.trans (by decide)
  refine ⟨ofMagnitude (decide (n < 0)) k, ?_, ?_⟩
  · rw [isFinite, magnitude_ofMagnitude _ hlt, decide_eq_true hk]
  · rw [value, negative_ofMagnitude _ hlt, magnitude_ofMagnitude _ hlt, hsize, Nat.cast_natAbs,
      Int.cast_abs]
    rcases lt_or_ge n 0 with h | h
    · have hcast : (n : Rat) < 0 := by exact_mod_cast h
      rw [if_pos (decide_eq_true h), abs_of_neg hcast, neg_neg]
    · have hcast : (0 : Rat) ≤ n := by exact_mod_cast h
      rw [if_neg (by simpa using h), abs_of_nonneg hcast]

/-- **A result that is an integer of up to 53 bits is exact.** -/
theorem IsRounding.value_eq_intCast {n : Int} (h : IsRounding n x) (hn : n.natAbs < 2 ^ 53) :
    x.isFinite = true ∧ x.value = n := by
  obtain ⟨y, hfinite, hy⟩ := exists_value_eq_intCast hn
  have hover : |(n : Rat)| < overflow := by
    have hcast : |(n : Rat)| < 2 ^ 53 := by
      rw [← Int.cast_abs, ← Nat.cast_natAbs]
      exact_mod_cast hn
    exact hcast.trans bits_lt_overflow
  exact ⟨h.isFinite_iff.mpr hover, h.value_eq hover hfinite hy⟩

theorem value_ofInt {n : Int} (hn : n.natAbs < 2 ^ 53) :
    (ofInt n).isFinite = true ∧ (ofInt n).value = n := by
  refine (isRounding_ofInt ?_).value_eq_intCast hn
  rcases Nat.eq_zero_or_pos n.natAbs with h | h
  · rw [h]
    decide
  · exact ((Nat.log2_lt h.ne').mpr hn).trans (by decide)

theorem value_one : one.value = 1 := by
  have hparts := value_eq_of_parts (x := one) (m := 2 ^ 52) (e := -52) (by decide) (by decide)
    (by decide)
  rw [hparts]
  norm_num

theorem value_ten : ten.value = 10 := by
  have hparts := value_eq_of_parts (x := ten) (m := 10 * 2 ^ 49) (e := -49) (by decide) (by decide)
    (by decide)
  rw [hparts]
  norm_num

/-! ## The integer part -/

theorem value_of_toRat?_eq_some {r : Rat} (h : x.toRat? = some r) :
    x.isFinite = true ∧ x.value = r := by
  have hfinite : x.isFinite = true := by
    by_contra hinfinite
    rw [toRat?, if_neg hinfinite] at h
    cases h
  rw [toRat?_eq hfinite] at h
  exact ⟨hfinite, Option.some.inj h⟩

theorem toInt?_of_value_eq (hx : x.isFinite = true) {n : Int} (h : x.value = n) :
    x.toInt? = some n := by
  obtain ⟨m, hm, htruncates⟩ := exists_toInt? hx
  rw [h] at htruncates
  rw [hm, htruncates.unique (.intCast n)]

/-- The truncated number is the same double if it has the same value. -/
theorem trunc_eq_self (hx : x.isFinite = true) (h : x.trunc.value = x.value) : x.trunc = x := by
  obtain ⟨k, htrunc, hle, -⟩ := exists_trunc_eq x
  have hbound : x.magnitude < infinityMagnitude := by simpa [isFinite] using hx
  have hlt : k < signBit := (hle.trans_lt hbound).trans (by decide)
  have hsize : size k = size x.magnitude := by
    rw [htrunc, value, negative_ofMagnitude _ hlt, magnitude_ofMagnitude _ hlt, value] at h
    split at h
    · exact neg_inj.mp h
    · exact h
  rw [htrunc, size_strictMono.injective hsize]
  exact ofMagnitude_self hx

/-- **The integer part is the largest integer that is not above.** -/
theorem toInt?_floor (hx : x.isFinite = true) (hsmall : |x.value| < 2 ^ 52) :
    x.floor.toInt? = some ⌊x.value⌋ := by
  obtain ⟨n, hn, htruncates⟩ := exists_toInt? hx
  have htrunc := toRat?_trunc x
  rw [hn, Option.map_some] at htrunc
  obtain ⟨hfinite, hvalue⟩ := value_of_toRat?_eq_some htrunc
  unfold floor
  split
  · rename_i hself
    rw [hself] at hvalue
    rw [hn, hvalue, Int.floor_intCast]
  rename_i hne
  have hrest : x.value - n ≠ 0 := fun h =>
    hne (trunc_eq_self hx (hvalue.trans (sub_eq_zero.mp h).symm))
  obtain ⟨hone, hsign⟩ := htruncates.rest
  rw [abs_lt] at hone
  split
  · -- the truncated number is above
    rename_i hneg
    have hround := isRounding_sub hfinite (show one.isFinite = true by decide)
    have hn53 : (n - 1).natAbs < 2 ^ 53 := by
      have hlt : |(n : Rat)| < 2 ^ 52 := htruncates.le.trans_lt hsmall
      have hlt' : |n| < 2 ^ 52 := by exact_mod_cast hlt
      rw [abs_lt] at hlt'
      omega
    rw [hvalue, value_one, show (n : Rat) - 1 = (n - 1 : Int) by push_cast; rfl] at hround
    obtain ⟨hfinite', hvalue'⟩ := hround.value_eq_intCast hn53
    have hbelow : x.value - n < 0 := by
      have := value_nonpos hneg
      rcases hsign with h | h | h
      · exact absurd h hrest
      · linarith [h.2]
      · exact h.1
    have hfloor : ⌊x.value⌋ = n - 1 := by
      rw [Int.floor_eq_iff]
      push_cast
      constructor <;> linarith
    rw [toInt?_of_value_eq hfinite' hvalue', hfloor]
  · rename_i hneg
    have habove : 0 < x.value - n := by
      have := value_nonneg hneg
      rcases hsign with h | h | h
      · exact absurd h hrest
      · exact h.1
      · linarith [h.2]
    have hfloor : ⌊x.value⌋ = n := by
      rw [Int.floor_eq_iff]
      constructor <;> linarith
    rw [toInt?_of_value_eq hfinite hvalue, hfloor]

end Double

end RpnCalculator
