import Mathlib.Analysis.SpecialFunctions.Log.Base
import RpnCalculator.Number.Notation
import RpnCalculator.Proofs.Number.Integers
import RpnCalculator.Proofs.Number.NaturalLogarithm

/-!
# How exact the common logarithm is

The common logarithm is put together from a binary exponent, the natural logarithm of a factor near
one, and three constants.  `Near` says how far a double is from a number at most, and every
operation adds what it rounds to what its operands are off (`Near.add`, `Near.mul`).  The exponent
times the leading bits of a constant is the only large number among the parts, so it and the last
sum make up nearly all of the error, which is less than `10 ^ (-13)` (`commonLog_near`).

An integer part does not bear any error next to an integer.  So the computed exponent of a number
is the right one except that a number a little below a power of ten may be taken for one that has
reached it, and one that has just reached it for one that is below.  `logarithmFloor_spec` says
what is true of every number: it has reached the power, and has not reached the next one, but for
the factor `1 - 2 / 10 ^ 13`.
-/

namespace RpnCalculator

namespace Double

variable {x : Double}

/-! ## Absolute errors -/

/-- What is near a bounded number is bounded. -/
theorem abs_le_add_of_near {K : Type} [AddCommGroup K] [LinearOrder K] [IsOrderedAddMonoid K]
    {a r M δ : K} (h : |a - r| ≤ δ) (hr : |r| ≤ M) : |a| ≤ M + δ := by
  calc |a| = |r + (a - r)| := by rw [add_sub_cancel]
    _ ≤ |r| + |a - r| := abs_add_le ..
    _ ≤ M + δ := add_le_add hr h

/-- The double is finite, and so far away from the number at most. -/
structure Near (δ r : Rat) (x : Double) : Prop where
  finite : x.isFinite = true
  error : |x.value - r| ≤ δ

namespace Near

variable {δ δ' ε r s v M R S : Rat} {y z : Double}

/-- An exact result that is off by `δ` is rounded. -/
theorem of_isRounding (h : IsRounding v z) (hv : |v - r| ≤ δ) (hr : |r| ≤ M) (hM : M + δ ≤ 2 ^ 52)
    (hε : δ + (M + δ) / 2 ^ 53 + 1 / 2 ^ 100 ≤ ε) : Near ε r z := by
  obtain ⟨hfinite, herror⟩ := h.near (abs_le_add_of_near hv hr) hM
  refine ⟨hfinite, ?_⟩
  calc |z.value - r| ≤ |z.value - v| + |v - r| := abs_sub_le ..
    _ ≤ (M + δ) / 2 ^ 53 + 1 / 2 ^ 100 + δ := add_le_add herror hv
    _ ≤ ε := by linarith

theorem add (hx : Near δ r x) (hy : Near δ' s y) (hrs : |r + s| ≤ M) (hM : M + (δ + δ') ≤ 2 ^ 52)
    (hε : δ + δ' + (M + (δ + δ')) / 2 ^ 53 + 1 / 2 ^ 100 ≤ ε) : Near ε (r + s) (x + y) := by
  refine of_isRounding (isRounding_add hx.finite hy.finite) ?_ hrs hM hε
  calc |x.value + y.value - (r + s)| = |x.value - r + (y.value - s)| := by rw [add_sub_add_comm]
    _ ≤ |x.value - r| + |y.value - s| := abs_add_le ..
    _ ≤ δ + δ' := add_le_add hx.error hy.error

theorem mul (hx : Near δ r x) (hy : Near δ' s y) (hr : |r| ≤ R) (hs : |s| ≤ S)
    (hM : R * S + (δ * S + (R + δ) * δ') ≤ 2 ^ 52)
    (hε : δ * S + (R + δ) * δ' + (R * S + (δ * S + (R + δ) * δ')) / 2 ^ 53 + 1 / 2 ^ 100 ≤ ε) :
    Near ε (r * s) (x * y) := by
  have hδ := (abs_nonneg _).trans hx.error
  have hR := (abs_nonneg _).trans hr
  have hxbound := abs_le_add_of_near hx.error hr
  have hrs : |r * s| ≤ R * S := by
    rw [abs_mul]
    gcongr
  refine of_isRounding (isRounding_mul hx.finite hy.finite) ?_ hrs hM hε
  calc |x.value * y.value - r * s| = |(x.value - r) * s + x.value * (y.value - s)| := by ring_nf
    _ ≤ |x.value - r| * |s| + |x.value| * |y.value - s| := by
        rw [← abs_mul, ← abs_mul]
        exact abs_add_le ..
    _ ≤ δ * S + (R + δ) * δ' := by
        have := hx.error
        have := hy.error
        gcongr

theorem of_value_eq (hx : x.isFinite = true) (h : x.value = r) : Near 0 r x :=
  ⟨hx, by rw [h, sub_self, abs_zero]⟩

end Near

/-! ## Constants -/

theorem value_tenLogInverse : tenLogInverse.value = 0x1BCB7B1526E50E / 2 ^ 54 := by
  have hparts := value_eq_of_parts (x := tenLogInverse) (m := 0x1BCB7B1526E50E) (e := -54)
    (by decide) (by decide) (by decide)
  rw [hparts]
  norm_num

theorem value_twoLogHigh : twoLogHigh.value = 0x134413509F6000 / 2 ^ 54 := by
  have hparts := value_eq_of_parts (x := twoLogHigh) (m := 0x134413509F6000) (e := -54)
    (by decide) (by decide) (by decide)
  rw [hparts]
  norm_num

theorem value_twoLogLow : twoLogLow.value = 0x19FEF311F12B36 / 2 ^ 94 := by
  have hparts := value_eq_of_parts (x := twoLogLow) (m := 0x19FEF311F12B36) (e := -94)
    (by decide) (by decide) (by decide)
  rw [hparts]
  norm_num

/-- How near a constant is to a quotient of logarithms. -/
theorem abs_sub_div_le {a b c δ : ℝ} (hb : 0 < b) (h : |c * b - a| ≤ δ * b) :
    |c - a / b| ≤ δ := by
  have hsplit : c - a / b = (c * b - a) / b := by field_simp
  rwa [hsplit, abs_div, abs_of_pos hb, div_le_iff₀ hb]

theorem log_ten_pos : 0 < Real.log 10 := Real.log_pos (by norm_num)

theorem twoLog_near : |((twoLogHigh.value + twoLogLow.value : Rat) : ℝ) -
    Real.log 2 / Real.log 10| ≤ 1 / 10 ^ 25 := by
  have htwo := log_two_bounds
  have hten := log_ten_bounds
  refine abs_sub_div_le log_ten_pos ?_
  rw [value_twoLogHigh, value_twoLogLow, abs_le]
  norm_num at htwo hten ⊢
  constructor <;> linarith

theorem tenLogInverse_near : |(tenLogInverse.value : ℝ) - 1 / Real.log 10| ≤ 1 / 10 ^ 16 := by
  have hten := log_ten_bounds
  refine abs_sub_div_le log_ten_pos ?_
  rw [value_tenLogInverse, abs_le]
  norm_num at hten ⊢
  constructor <;> linarith

/-! ## The sum -/

/-- The sum of the parts of the logarithm, `y` and `log` being what they are computed from. -/
def logarithmSum (y : Int) (log : Double) : Double :=
  (ofInt y * twoLogLow + tenLogInverse * log) + ofInt y * twoLogHigh

/-- **Every operation of the sum is rounded.**  The product with the leading bits and the last sum
are the only large numbers, and their roundings make up nearly all of the error. -/
theorem near_logarithmSum {y : Int} (hy : |y| ≤ 1075) {r : Rat} (hr : |r| ≤ 7 / 10) {log : Double}
    (hlog : IsRounding r log) :
    Near (73 / 10 ^ 15) (y * twoLogLow.value + tenLogInverse.value * r + y * twoLogHigh.value)
      (logarithmSum y log) := by
  have hy' : |(y : Rat)| ≤ 1075 := by exact_mod_cast hy
  have hsmall : y.natAbs < 2 ^ 53 := by
    rw [abs_le] at hy
    omega
  obtain ⟨hfinite, hvalue⟩ := value_ofInt hsmall
  have hlow : |twoLogLow.value| ≤ 1 / 2 ^ 41 := by
    rw [value_twoLogLow]
    norm_num
  have hhigh : |twoLogHigh.value| ≤ 30103 / 10 ^ 5 := by
    rw [value_twoLogHigh]
    norm_num
  have hten : |tenLogInverse.value| ≤ 4343 / 10 ^ 4 := by
    rw [value_tenLogInverse]
    norm_num
  have hY : Near 0 y (ofInt y) := .of_value_eq hfinite hvalue
  have hB : Near (2 / 2 ^ 53) r log :=
    .of_isRounding hlog (by rw [sub_self, abs_zero]) hr (by norm_num) (by norm_num)
  have hA : Near (1 / 2 ^ 80) (y * twoLogLow.value) (ofInt y * twoLogLow) :=
    hY.mul (.of_value_eq (by decide) rfl) hy' hlow (by norm_num) (by norm_num)
  have hC : Near (2 / 2 ^ 53) (tenLogInverse.value * r) (tenLogInverse * log) :=
    (Near.of_value_eq (by decide) rfl).mul hB hten hr (by norm_num) (by norm_num)
  have hF : Near (324 / 2 ^ 53) (y * twoLogHigh.value) (ofInt y * twoLogHigh) :=
    hY.mul (.of_value_eq (by decide) rfl) hy' hhigh (by norm_num) (by norm_num)
  have hA' : |y * twoLogLow.value| ≤ 1 / 1000 := by
    rw [abs_mul]
    calc |(y : Rat)| * |twoLogLow.value| ≤ 1075 * (1 / 2 ^ 41) := by gcongr
      _ ≤ 1 / 1000 := by norm_num
  have hC' : |tenLogInverse.value * r| ≤ 1 / 3 := by
    rw [abs_mul]
    calc |tenLogInverse.value| * |r| ≤ 4343 / 10 ^ 4 * (7 / 10) := by gcongr
      _ ≤ 1 / 3 := by norm_num
  have hF' : |y * twoLogHigh.value| ≤ 324 := by
    rw [abs_mul]
    calc |(y : Rat)| * |twoLogHigh.value| ≤ 1075 * (30103 / 10 ^ 5) := by gcongr
      _ ≤ 324 := by norm_num
  have hE' : |y * twoLogLow.value + tenLogInverse.value * r| ≤ 1 / 2 :=
    (abs_add_le ..).trans (by linarith)
  have hE : Near (5 / 2 ^ 53) (y * twoLogLow.value + tenLogInverse.value * r)
      (ofInt y * twoLogLow + tenLogInverse * log) :=
    hA.add hC hE' (by norm_num) (by norm_num)
  exact hE.add hF ((abs_add_le ..).trans (add_le_add hE' hF')) (by norm_num) (by norm_num)

/-! ## The reduction -/

/-- The range of the doubles. -/
theorem size_bounds (hx : x.isFinite = true) (h0 : x.significand ≠ 0) :
    2 ^ (-1074 : Int) ≤ size x.magnitude ∧ size x.magnitude < 2 ^ (1024 : Int) := by
  have hfield : x.exponentField ≤ 2046 := by
    rw [isFinite, decide_eq_true_iff] at hx
    unfold exponentField fractionSize
    unfold infinityMagnitude at hx
    omega
  have hscale : -1074 ≤ x.scale ∧ x.scale ≤ 971 := by
    unfold scale
    omega
  have hone : (1 : Rat) ≤ x.significand := by exact_mod_cast Nat.pos_of_ne_zero h0
  have hlt : (x.significand : Rat) < 2 ^ (53 : Int) := by
    exact_mod_cast x.significand_lt
  rw [size_magnitude]
  constructor
  · calc (2 : Rat) ^ (-1074 : Int) ≤ 2 ^ x.scale := zpow_le_zpow_right₀ one_le_two hscale.1
      _ ≤ x.significand * 2 ^ x.scale := le_mul_of_one_le_left (by positivity) hone
  · calc x.significand * (2 : Rat) ^ x.scale < 2 ^ (53 : Int) * 2 ^ x.scale := by gcongr
      _ = 2 ^ (53 + x.scale) := (zpow_add₀ two_ne_zero ..).symm
      _ ≤ 2 ^ (1024 : Int) := zpow_le_zpow_right₀ one_le_two (by omega)

/-- A power of two is put into the numerator or into the denominator. -/
theorem two_pow_toNat_div (y : Int) : (2 : Rat) ^ (-y).toNat / 2 ^ y.toNat = 2 ^ (-y) := by
  rw [← zpow_natCast, ← zpow_natCast, ← zpow_sub₀ two_ne_zero]
  congr 1
  omega

/-- **A number is a power of two and a factor near one**, and its logarithm is computed from
both. -/
theorem exists_commonLog_eq (hx : x.isFinite = true) (h0 : x.significand ≠ 0) :
    ∃ y : Int, ∃ n d : Nat, |y| ≤ 1075 ∧ 0 < n ∧ 0 < d ∧ n ≤ 2 * d ∧ d ≤ 2 * n ∧
      (n : Rat) / d * 2 ^ y = |x.value| ∧ x.commonLog = logarithmSum y (naturalLog n d) := by
  obtain ⟨p, hp⟩ : ∃ p, p = binaryExponent x.ratio.1 x.ratio.2 := ⟨_, rfl⟩
  obtain ⟨y, hy⟩ : ∃ y, y = if p < 0 then p + 1 else p := ⟨_, rfl⟩
  obtain ⟨hlow, hhigh⟩ := size_bounds hx h0
  have hn : x.ratio.1 ≠ 0 := by
    intro hzero
    rw [← ratio_eq, hzero, Nat.cast_zero, zero_div] at hlow
    exact absurd hlow (not_le.mpr (by positivity))
  obtain ⟨hreach, hbelow⟩ := binaryExponent_spec hn x.ratio_snd_pos
  rw [ratio_eq, ← hp] at hreach hbelow
  have hp₁ : p < 1024 := (zpow_lt_zpow_iff_right₀ one_lt_two).mp (hreach.trans_lt hhigh)
  have hp₂ : -1074 < p + 1 := (zpow_lt_zpow_iff_right₀ one_lt_two).mp (hlow.trans_lt hbelow)
  have hquotient : ((x.ratio.1 * 2 ^ (-y).toNat : Nat) : Rat) / (x.ratio.2 * 2 ^ y.toNat : Nat) =
      size x.magnitude * 2 ^ (-y) := by
    push_cast
    rw [← two_pow_toNat_div, ← ratio_eq, div_mul_div_comm]
  have hnpos : 0 < x.ratio.1 * 2 ^ (-y).toNat := Nat.mul_pos (Nat.pos_of_ne_zero hn) (by positivity)
  have hdpos : 0 < x.ratio.2 * 2 ^ y.toNat := Nat.mul_pos x.ratio_snd_pos (by positivity)
  have hdpos' : (0 : Rat) < (x.ratio.2 * 2 ^ y.toNat : Nat) := by exact_mod_cast hdpos
  have hhalf : (2 : Rat) ^ (-1 : Int) ≤ size x.magnitude * 2 ^ (-y) := by
    calc (2 : Rat) ^ (-1 : Int) ≤ 2 ^ (p + -y) :=
          zpow_le_zpow_right₀ one_le_two (by split at hy <;> omega)
      _ = 2 ^ p * 2 ^ (-y) := zpow_add₀ two_ne_zero ..
      _ ≤ size x.magnitude * 2 ^ (-y) := by gcongr
  have htwo : size x.magnitude * 2 ^ (-y) ≤ 2 ^ (1 : Int) := by
    calc size x.magnitude * 2 ^ (-y) ≤ 2 ^ (p + 1) * 2 ^ (-y) := by gcongr
      _ = 2 ^ (p + 1 + -y) := (zpow_add₀ two_ne_zero ..).symm
      _ ≤ 2 ^ (1 : Int) := zpow_le_zpow_right₀ one_le_two (by split at hy <;> omega)
  rw [← hquotient] at hhalf htwo
  refine ⟨y, _, _, ?_, hnpos, hdpos, ?_, ?_, ?_, ?_⟩
  · rw [abs_le]
    split at hy <;> omega
  · rw [div_le_iff₀ hdpos', zpow_one] at htwo
    exact_mod_cast htwo
  · rw [le_div_iff₀ hdpos', zpow_neg_one, inv_mul_le_iff₀ two_pos] at hhalf
    exact_mod_cast hhalf
  · rw [hquotient, mul_assoc, ← zpow_add₀ two_ne_zero, neg_add_cancel, zpow_zero, mul_one,
      abs_value]
  · rw [hy, hp]
    rfl

/-! ## The logarithm -/

/-- The logarithm of a factor near one is small. -/
theorem abs_log_div_le {n d : Nat} (hn : 0 < n) (hd : 0 < d) (hnd : n ≤ 2 * d) (hdn : d ≤ 2 * n) :
    |Real.log (n / d)| ≤ Real.log 2 := by
  have hn' : (0 : ℝ) < n := by exact_mod_cast hn
  have hd' : (0 : ℝ) < d := by exact_mod_cast hd
  have hhigh : (n : ℝ) / d ≤ 2 := by
    rw [div_le_iff₀ hd']
    exact_mod_cast hnd
  have hlow : (2 : ℝ)⁻¹ ≤ n / d := by
    rw [le_div_iff₀ hd', inv_mul_le_iff₀ two_pos]
    exact_mod_cast hdn
  rw [abs_le, ← Real.log_inv]
  exact ⟨Real.log_le_log (by positivity) hlow, Real.log_le_log (by positivity) hhigh⟩

/-- **The computed logarithm is the logarithm**, but for less than `10 ^ (-13)`. -/
theorem commonLog_near (hx : x.isFinite = true) (h0 : x.significand ≠ 0) :
    x.commonLog.isFinite = true ∧
      |(x.commonLog.value : ℝ) - Real.logb 10 (|x.value| : Rat)| ≤ 8 / 10 ^ 14 := by
  obtain ⟨y, n, d, hy, hn, hd, hnd, hdn, hvalue, heq⟩ := exists_commonLog_eq hx h0
  obtain ⟨r, hround, hlog⟩ := exists_isRounding_naturalLog hn hd hnd hdn
  have hy' : |(y : ℝ)| ≤ 1075 := by exact_mod_cast hy
  have hfactor := abs_log_div_le hn hd hnd hdn
  have htwo := log_two_bounds.2
  have hten := log_ten_bounds.1
  have hr : |(r : ℝ)| ≤ 7 / 10 :=
    (abs_le_add_of_near hlog (hfactor.trans htwo)).trans (by norm_num)
  have hr' : |r| ≤ 7 / 10 := by
    rw [← Rat.cast_le (K := ℝ)]
    push_cast
    exact hr
  have hsum := near_logarithmSum hy hr' hround
  rw [← heq] at hsum
  refine ⟨hsum.finite, ?_⟩
  have herror := Rat.cast_le (K := ℝ).mpr hsum.error
  push_cast at herror
  have hn' : (0 : ℝ) < n := by exact_mod_cast hn
  have hd' : (0 : ℝ) < d := by exact_mod_cast hd
  have hexact : Real.logb 10 (|x.value| : Rat) =
      (Real.log (n / d) + y * Real.log 2) / Real.log 10 := by
    rw [← hvalue, Real.logb]
    push_cast
    rw [Real.log_mul (by positivity) (by positivity), Real.log_zpow]
  -- what the constants and the natural logarithm are off
  have hconstants : |(y : ℝ) * ((twoLogHigh.value + twoLogLow.value : Rat) -
      Real.log 2 / Real.log 10)| ≤ 1075 * (1 / 10 ^ 25) := by
    rw [abs_mul]
    exact mul_le_mul hy' twoLog_near (abs_nonneg _) (by norm_num)
  have hinverse : |((tenLogInverse.value : ℝ) - 1 / Real.log 10) * r| ≤
      1 / 10 ^ 16 * (7 / 10) := by
    rw [abs_mul]
    exact mul_le_mul tenLogInverse_near hr (abs_nonneg _) (by norm_num)
  have hnatural : |((r : ℝ) - Real.log (n / d)) / Real.log 10| ≤ 1 / 2 ^ 183 := by
    rw [abs_div, abs_of_pos log_ten_pos]
    exact (div_le_self (abs_nonneg _) (by norm_num at hten; linarith)).trans hlog
  have hsplit : (x.commonLog.value : ℝ) - Real.logb 10 (|x.value| : Rat) =
      (x.commonLog.value - (y * twoLogLow.value + tenLogInverse.value * r +
        y * twoLogHigh.value)) +
      y * ((twoLogHigh.value + twoLogLow.value : Rat) - Real.log 2 / Real.log 10) +
      ((tenLogInverse.value : ℝ) - 1 / Real.log 10) * r +
      (r - Real.log (n / d)) / Real.log 10 := by
    rw [hexact]
    push_cast
    ring
  rw [abs_le] at herror hconstants hinverse hnatural ⊢
  rw [hsplit]
  norm_num at herror hconstants hinverse hnatural ⊢
  constructor <;> linarith

/-! ## Its integer part -/

/-- The range of the doubles in powers of ten. -/
theorem abs_value_bounds (hx : x.isFinite = true) (h0 : x.significand ≠ 0) :
    2 * 10 ^ (-324 : Int) < |x.value| ∧ |x.value| < 2 * 10 ^ (308 : Int) := by
  obtain ⟨hlow, hhigh⟩ := size_bounds hx h0
  rw [abs_value]
  have hnat : 2 * 2 ^ 1074 < 10 ^ 324 := by decide +kernel
  have hnat' : 2 ^ 1024 ≤ 2 * 10 ^ 308 := by decide +kernel
  have hpow : (2 : Rat) * 2 ^ 1074 < 10 ^ 324 := by exact_mod_cast hnat
  have hpow' : (2 : Rat) ^ 1024 ≤ 2 * 10 ^ 308 := by exact_mod_cast hnat'
  constructor
  · refine lt_of_lt_of_le ?_ hlow
    rw [show (-324 : Int) = -(324 : Nat) by norm_num,
      show (-1074 : Int) = -(1074 : Nat) by norm_num, zpow_neg, zpow_neg, zpow_natCast,
      zpow_natCast, ← div_eq_mul_inv, div_lt_iff₀ (by positivity), inv_mul_eq_div,
      lt_div_iff₀ (by positivity)]
    exact hpow
  · refine hhigh.trans_le ?_
    rw [show (1024 : Int) = (1024 : Nat) by norm_num, show (308 : Int) = (308 : Nat) by norm_num,
      zpow_natCast, zpow_natCast]
    exact hpow'

/-- A number whose logarithm is known but for an error is known but for a factor. -/
theorem mul_le_of_le_logb {R δ : ℝ} {n : Int} (hR : 0 < R) (h : n - δ ≤ Real.logb 10 R) :
    10 ^ n * (1 - δ * Real.log 10) ≤ R := by
  rw [Real.logb, le_div_iff₀ log_ten_pos] at h
  calc 10 ^ n * (1 - δ * Real.log 10) ≤ 10 ^ n * Real.exp (-(δ * Real.log 10)) := by
        gcongr
        linarith [Real.add_one_le_exp (-(δ * Real.log 10))]
    _ = Real.exp ((n - δ) * Real.log 10) := by
        rw [sub_mul, sub_eq_add_neg, Real.exp_add, ← Real.log_zpow, Real.exp_log (by positivity)]
    _ ≤ Real.exp (Real.log R) := Real.exp_le_exp.mpr h
    _ = R := Real.exp_log hR

theorem mul_lt_of_logb_lt {R δ : ℝ} {n : Int} (hR : 0 < R) (h : Real.logb 10 R < n + δ) :
    R * (1 - δ * Real.log 10) < 10 ^ n := by
  rw [Real.logb, div_lt_iff₀ log_ten_pos] at h
  calc R * (1 - δ * Real.log 10) ≤ R * Real.exp (-(δ * Real.log 10)) := by
        gcongr
        linarith [Real.add_one_le_exp (-(δ * Real.log 10))]
    _ = Real.exp (Real.log R - δ * Real.log 10) := by
        rw [sub_eq_add_neg, Real.exp_add, Real.exp_log hR]
    _ < Real.exp (n * Real.log 10) := Real.exp_lt_exp.mpr (by linarith)
    _ = 10 ^ n := by rw [← Real.log_zpow, Real.exp_log (by positivity)]

theorem logb_zpow (n : Int) : Real.logb 10 ((10 : ℝ) ^ n) = n := by
  rw [Real.logb, Real.log_zpow, mul_div_cancel_right₀ _ log_ten_pos.ne']

theorem logarithmFloor_eq (hx : x.isFinite = true) (h0 : x.significand ≠ 0) :
    x.logarithmFloor = ⌊x.commonLog.value⌋ := by
  obtain ⟨hfinite, hnear⟩ := commonLog_near hx h0
  obtain ⟨hlow, hhigh⟩ := abs_value_bounds hx h0
  generalize |x.value| = r at hnear hlow hhigh
  have hlow' := (Rat.cast_lt (K := ℝ)).mpr
    ((lt_mul_of_one_lt_left (by positivity) one_lt_two).trans hlow)
  rw [Rat.cast_zpow, Rat.cast_ofNat] at hlow'
  have hhigh' : (r : ℝ) ≤ 10 ^ (309 : Int) := by
    have hcast : (r : ℝ) < 2 * 10 ^ (308 : Int) := by
      exact_mod_cast (Rat.cast_lt (K := ℝ)).mpr hhigh
    rw [show (309 : Int) = 308 + 1 by norm_num, zpow_add_one₀ (by norm_num), mul_comm]
    refine hcast.le.trans ?_
    gcongr
    norm_num
  have hpos : (0 : ℝ) < r := lt_trans (by positivity) hlow'
  have hlog := Real.logb_le_logb_of_le (b := 10) (by norm_num) (by positivity) hlow'.le
  have hlog' := Real.logb_le_logb_of_le (b := 10) (by norm_num) hpos hhigh'
  rw [logb_zpow] at hlog hlog'
  have hsmall : |x.commonLog.value| < 2 ^ 52 := by
    rw [← Rat.cast_lt (K := ℝ)]
    push_cast at hlog hlog' ⊢
    rw [abs_le] at hnear
    rw [abs_lt]
    norm_num at hnear ⊢
    constructor <;> linarith
  rw [logarithmFloor, toInt?_floor hfinite hsmall, Option.getD_some]

/-- **The integer part of the logarithm is that of the number**, but for numbers that are just below
a power of ten. -/
theorem logarithmFloor_spec (hx : x.isFinite = true) (h0 : x.significand ≠ 0) :
    10 ^ x.logarithmFloor * (1 - 2 / 10 ^ 13) ≤ |x.value| ∧
      |x.value| * (1 - 2 / 10 ^ 13) < 10 ^ (x.logarithmFloor + 1) := by
  obtain ⟨-, hnear⟩ := commonLog_near hx h0
  have hpos := abs_value_pos h0
  have hpos' : (0 : ℝ) < (|x.value| : Rat) := by exact_mod_cast hpos
  have hfloor := Int.floor_le x.commonLog.value
  have hfloor' := Int.lt_floor_add_one x.commonLog.value
  rw [← logarithmFloor_eq hx h0] at hfloor hfloor'
  have hle : (x.logarithmFloor : ℝ) ≤ x.commonLog.value := by exact_mod_cast hfloor
  have hlt : (x.commonLog.value : ℝ) < (x.logarithmFloor + 1 : Int) := by exact_mod_cast hfloor'
  rw [abs_le] at hnear
  have hδ : 8 / 10 ^ 14 * Real.log 10 ≤ 2 / 10 ^ 13 := by
    have hten := log_ten_bounds.2
    norm_num at hten ⊢
    linarith
  have hbelow := mul_le_of_le_logb (n := x.logarithmFloor) (δ := 8 / 10 ^ 14) hpos'
    (by linarith [hnear.2])
  have habove := mul_lt_of_logb_lt (n := x.logarithmFloor + 1) (δ := 8 / 10 ^ 14) hpos'
    (by linarith [hnear.1])
  rw [← Rat.cast_le (K := ℝ), ← Rat.cast_lt (K := ℝ)]
  push_cast at hpos' hbelow habove ⊢
  have hten : (0 : ℝ) < 10 ^ x.logarithmFloor := by positivity
  constructor
  · refine le_trans ?_ hbelow
    gcongr
  · refine lt_of_le_of_lt ?_ habove
    gcongr

end Double

end RpnCalculator
