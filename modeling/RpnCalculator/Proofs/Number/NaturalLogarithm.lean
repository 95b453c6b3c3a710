import Mathlib.Analysis.SpecialFunctions.Log.Deriv
import RpnCalculator.Number.Logarithm
import RpnCalculator.Proofs.Number.Operations

/-!
# How exact the natural logarithm is

The logarithm of a fraction near one is a series in which every term is cut to a whole number of
units.  This file bounds what the cuts and the missing terms amount to.

A power that is cut is less than two units below the power of which it is the whole part, whatever
was cut before: the next power is multiplied by a square below a half, so what is missing shrinks
before it is cut again (`oddPowerSum_bounds`).  So every term costs three units at most, and 64 of
them cost less than `2 ^ (-183)`, the missing terms included (`abs_naturalLog_sum_sub_le`).  That
is far below the last place of a double, so `naturalLog` is the rounding of a number that can be
taken for the logarithm (`exists_isRounding_naturalLog`).

The same sums give the logarithms of two and of ten, with which the constants are compared
(`log_two_bounds`, `log_ten_bounds`).
-/

namespace RpnCalculator

open Finset

/-! ## The series -/

/-- A quotient of natural numbers is cut to the integer below. -/
theorem natCast_div_le_lt (n : Nat) {d : Nat} (hd : 0 < d) :
    ((n / d : Nat) : ℝ) ≤ (n : ℝ) / d ∧ (n : ℝ) / d < (n / d : Nat) + 1 := by
  refine ⟨Nat.cast_div_le, ?_⟩
  rw [div_lt_iff₀ (by exact_mod_cast hd)]
  exact_mod_cast (Nat.div_lt_iff_lt_mul hd).mp (Nat.lt_succ_self (n / d))

/-- **A sum of terms that are cut** is at most three units for each of them below the sum of
the terms. -/
theorem oddPowerSum_bounds {a b : Nat} (hb : 0 < b) (hab : 2 * (a * a) ≤ b * b) (count : Nat)
    {k power : Nat} (hk : 0 < k) {P : ℝ} (hle : power ≤ P) (hge : P ≤ power + 2) :
    (oddPowerSum a b count k power : ℝ) ≤
        ∑ i ∈ range count, P * (((a : ℝ) / b) ^ 2) ^ i / (k + 2 * i) ∧
      ∑ i ∈ range count, P * (((a : ℝ) / b) ^ 2) ^ i / (k + 2 * i) ≤
        (oddPowerSum a b count k power : ℝ) + 3 * count := by
  induction count generalizing k power P with
  | zero => simp [oddPowerSum]
  | succ count ih =>
    obtain ⟨s, hs⟩ : ∃ s : ℝ, s = ((a : ℝ) / b) ^ 2 := ⟨_, rfl⟩
    obtain ⟨q, hq⟩ : ∃ q, q = power * (a * a) / (b * b) := ⟨_, rfl⟩
    have hb' : (0 : ℝ) < b := by exact_mod_cast hb
    have hs0 : 0 ≤ s := hs ▸ sq_nonneg _
    have hs1 : 2 * s ≤ 1 := by
      rw [hs, div_pow, mul_div_assoc', div_le_one (by positivity), sq, sq]
      exact_mod_cast hab
    have hsquare : ((power * (a * a) : Nat) : ℝ) / (b * b : Nat) = power * s := by
      rw [hs]
      push_cast
      ring
    have hcut := natCast_div_le_lt (power * (a * a)) (Nat.mul_pos hb hb)
    rw [hsquare, ← hq] at hcut
    -- the power that is cut goes on being less than two units off
    have hle' : (q : ℝ) ≤ P * s := hcut.1.trans (mul_le_mul_of_nonneg_right hle hs0)
    have hge' : P * s ≤ q + 2 := by
      have := mul_le_mul_of_nonneg_right hge hs0
      linarith [hcut.2]
    obtain ⟨hsum, hsum'⟩ := ih (k := k + 2) (by omega) hle' hge'
    have hk' : (1 : ℝ) ≤ k := by exact_mod_cast hk
    have hterm := natCast_div_le_lt power hk
    have hfirst : (power : ℝ) / k ≤ P / k := by gcongr
    have hfirst' : P / k ≤ power / k + 2 := by
      calc P / k ≤ (power + 2) / k := by gcongr
        _ = power / k + 2 / k := add_div ..
        _ ≤ power / k + 2 := by
            gcongr
            exact div_le_self zero_le_two hk'
    have hsplit : ∑ i ∈ range (count + 1), P * s ^ i / (k + 2 * i) =
        ∑ i ∈ range count, P * s * s ^ i / ((k + 2 : Nat) + 2 * i) + P / k := by
      rw [sum_range_succ']
      congr 1
      · refine sum_congr rfl fun i _ => ?_
        push_cast
        rw [pow_succ', mul_assoc, mul_add, mul_one, add_assoc, add_comm (2 : ℝ)]
      · simp
    rw [← hs] at hsum hsum' ⊢
    rw [oddPowerSum, ← hq, hsplit]
    push_cast
    push_cast at hsum hsum'
    constructor <;> linarith

theorem cast_logarithmUnits : (logarithmUnits : ℝ) = 2 ^ 192 := by
  rw [logarithmUnits]
  exact Nat.cast_pow 2 192

/-- The sum of 64 terms, for `t = a / b`. -/
def artanhSum (a b : Nat) : Nat := oddPowerSum a b 64 1 (a * logarithmUnits / b)

/-- **The sum is the logarithm of `(1 + t) / (1 - t)`**, but for less than `2 ^ (-183)`. -/
theorem artanhSum_bounds {a b : Nat} (hb : 0 < b) (hab : 3 * a ≤ b) :
    2 * (artanhSum a b : ℝ) / 2 ^ 192 ≤ Real.log (((b : ℝ) + a) / (b - a)) ∧
      Real.log (((b : ℝ) + a) / (b - a)) ≤ 2 * (artanhSum a b : ℝ) / 2 ^ 192 + 1 / 2 ^ 183 := by
  obtain ⟨t, ht⟩ : ∃ t : ℝ, t = a / b := ⟨_, rfl⟩
  have hb' : (0 : ℝ) < b := by exact_mod_cast hb
  have ht0 : 0 ≤ t := ht ▸ by positivity
  have ht3 : t ≤ 1 / 3 := by
    rw [ht, div_le_div_iff₀ hb' three_pos]
    exact_mod_cast (by omega : a * 3 ≤ 1 * b)
  have hlog : ((b : ℝ) + a) / (b - a) = (1 + t) / (1 - t) := by
    rw [ht, one_add_div hb'.ne', one_sub_div hb'.ne', div_div_div_cancel_right₀ hb'.ne']
  have hfirst := natCast_div_le_lt (a * logarithmUnits) hb
  have hpower : ((a * logarithmUnits : Nat) : ℝ) / b = t * 2 ^ 192 := by
    rw [Nat.cast_mul, cast_logarithmUnits, ht]
    ring
  rw [hpower] at hfirst
  have hsquare : 2 * (a * a) ≤ b * b := by
    have := Nat.mul_le_mul hab hab
    nlinarith
  have hsum := oddPowerSum_bounds hb hsquare 64 one_pos hfirst.1 (by linarith [hfirst.2])
  have hseries : ∑ i ∈ range 64, t * 2 ^ 192 * (((a : ℝ) / b) ^ 2) ^ i / ((1 : Nat) + 2 * i) =
      2 ^ 192 * ∑ i ∈ range 64, t ^ (2 * i + 1) / (2 * i + 1) := by
    rw [mul_sum]
    refine sum_congr rfl fun i _ => ?_
    rw [← ht, ← pow_mul, pow_succ t, Nat.cast_one]
    ring
  rw [hseries, ← artanhSum] at hsum
  have hbelow := Real.sum_range_le_log_div ht0 (by linarith) 64
  have habove := Real.log_div_le_sum_range_add ht0 (by linarith) 64
  have htail : t ^ (2 * 64 + 1) / (1 - t ^ 2) ≤ 1 / 2 ^ 192 := by
    have hpow : t ^ (2 * 64 + 1) ≤ (1 / 3) ^ (2 * 64 + 1) := pow_le_pow_left₀ ht0 ht3 _
    have hrest : 1 / 2 ≤ 1 - t ^ 2 := by nlinarith
    calc t ^ (2 * 64 + 1) / (1 - t ^ 2) ≤ (1 / 3) ^ (2 * 64 + 1) / (1 / 2) := by gcongr
      _ ≤ 1 / 2 ^ 192 := by norm_num
  rw [hlog]
  generalize ∑ i ∈ range 64, t ^ (2 * i + 1) / (2 * i + 1) = sum at hsum hbelow habove
  generalize t ^ (2 * 64 + 1) / (1 - t ^ 2) = tail at habove htail
  generalize (artanhSum a b : ℝ) = S at hsum ⊢
  norm_num at hsum htail ⊢
  constructor <;> linarith

namespace Double

/-- **The natural logarithm is computed by one rounding**, of a number that differs from the
logarithm by less than matters. -/
theorem exists_isRounding_naturalLog {n d : Nat} (hn : 0 < n) (hd : 0 < d) (hnd : n ≤ 2 * d)
    (hdn : d ≤ 2 * n) :
    ∃ r : Rat, IsRounding r (naturalLog n d) ∧ |(r : ℝ) - Real.log (n / d)| ≤ 1 / 2 ^ 183 := by
  obtain ⟨a, ha⟩ : ∃ a, a = if n < d then d - n else n - d := ⟨_, rfl⟩
  have hround := isRounding_ofRatio (decide (n < d)) (2 * artanhSum a (n + d))
    (show 0 < logarithmUnits by decide)
  have hbounds := artanhSum_bounds (a := a) (show 0 < n + d by omega) (by split at ha <;> omega)
  have hcast : (((2 * artanhSum a (n + d) : Nat) / logarithmUnits : Rat) : ℝ) =
      2 * (artanhSum a (n + d) : ℝ) / 2 ^ 192 := by
    push_cast
    rw [cast_logarithmUnits]
  have hn' : (0 : ℝ) < n := by exact_mod_cast hn
  have hd' : (0 : ℝ) < d := by exact_mod_cast hd
  refine ⟨_, by rw [naturalLog, ← ha]; exact hround, ?_⟩
  rw [← hcast] at hbounds
  rcases lt_or_ge n d with h | h
  · rw [if_pos h] at ha
    have hinv : ((n + d : Nat) + a : ℝ) / ((n + d : Nat) - a) = (n / d : ℝ)⁻¹ := by
      rw [ha, Nat.cast_sub h.le, Nat.cast_add, show (n + d + (d - n) : ℝ) = 2 * d by ring,
        show (n + d - (d - n) : ℝ) = 2 * n by ring, mul_div_mul_left _ _ two_ne_zero, inv_div]
    rw [hinv, Real.log_inv] at hbounds
    rw [decide_eq_true h, signed, if_pos rfl, Rat.cast_neg, abs_le]
    constructor <;> linarith
  · rw [if_neg h.not_gt] at ha
    have hself : ((n + d : Nat) + a : ℝ) / ((n + d : Nat) - a) = n / d := by
      rw [ha, Nat.cast_sub h, Nat.cast_add, show (n + d + (n - d) : ℝ) = 2 * n by ring,
        show (n + d - (n - d) : ℝ) = 2 * d by ring, mul_div_mul_left _ _ two_ne_zero]
    rw [hself] at hbounds
    rw [decide_eq_false h.not_gt, signed, if_neg Bool.false_ne_true, abs_le]
    constructor <;> linarith

end Double

/-! ## The logarithms of two and of ten -/

/-- Thirty decimals of a logarithm, read off the sum. -/
theorem log_bounds_of_artanhSum {a b : Nat} {x : ℝ} (hb : 0 < b) (hab : 3 * a ≤ b)
    (hx : ((b : ℝ) + a) / (b - a) = x) (u : Nat)
    (hu : u * 2 ^ 192 ≤ 2 * artanhSum a b * 10 ^ 30)
    (hu' : 2 * artanhSum a b * 10 ^ 30 ≤ (u + 1) * 2 ^ 192) :
    (u : ℝ) / 10 ^ 30 ≤ Real.log x ∧ Real.log x ≤ (u + 2) / 10 ^ 30 := by
  obtain ⟨hle, hge⟩ := artanhSum_bounds hb hab
  rw [hx] at hle hge
  have hle' : (u : ℝ) * 2 ^ 192 ≤ 2 * artanhSum a b * 10 ^ 30 := by exact_mod_cast hu
  have hge' : 2 * (artanhSum a b : ℝ) * 10 ^ 30 ≤ (u + 1) * 2 ^ 192 := by exact_mod_cast hu'
  generalize (artanhSum a b : ℝ) = S at hle hge hle' hge'
  norm_num at hle hge hle' hge' ⊢
  constructor <;> linarith

theorem log_two_bounds : (693147180559945309417232121458 : ℝ) / 10 ^ 30 ≤ Real.log 2 ∧
    Real.log 2 ≤ 693147180559945309417232121460 / 10 ^ 30 := by
  have hbounds := log_bounds_of_artanhSum (a := 1) (b := 3) (by decide) (by decide)
    (show ((3 : Nat) + (1 : Nat) : ℝ) / ((3 : Nat) - (1 : Nat)) = 2 by norm_num)
    693147180559945309417232121458 (by decide +kernel) (by decide +kernel)
  norm_num at hbounds ⊢
  exact hbounds

/-- Ten is the cube of two and a fourth of it. -/
theorem log_ten_bounds : (2302585092994045684017991454683 : ℝ) / 10 ^ 30 ≤ Real.log 10 ∧
    Real.log 10 ≤ 2302585092994045684017991454691 / 10 ^ 30 := by
  have hbounds := log_bounds_of_artanhSum (a := 1) (b := 9) (by decide) (by decide)
    (show ((9 : Nat) + (1 : Nat) : ℝ) / ((9 : Nat) - (1 : Nat)) = 5 / 4 by norm_num)
    223143551314209755766295090309 (by decide +kernel) (by decide +kernel)
  have hten : Real.log 10 = 3 * Real.log 2 + Real.log (5 / 4) := by
    rw [show (10 : ℝ) = 2 ^ 3 * (5 / 4) by norm_num, Real.log_mul (by norm_num) (by norm_num),
      Real.log_pow]
    norm_num
  have htwo := log_two_bounds
  rw [hten]
  norm_num at hbounds htwo ⊢
  constructor <;> linarith

end RpnCalculator
