import Mathlib.Algebra.Order.Ring.Pow
import RpnCalculator.Proofs.Number.Integers

/-!
# Powers of ten

A power of ten is computed by repeated squaring, and every product is rounded.  This file bounds
what that changes.  A rounding changes a number by the factor `roundingFactor` at most, in one
direction or the other, as long as the number is not near the ends of the range
(`IsRounding.factor`).  So it is enough to count roundings: `Within k r x` says that the double is
at most `k` of them away from the number, and counts add up in products and quotients
(`Within.mul`, `Within.div`).

A square counts the roundings of its factor twice, so repeated squaring rounds no less, by this
count, than repeated multiplication (`within_go`).  A power between `10 ^ -307` and `10 ^ 308` is at
most 309 roundings away (`within_powInt`).  Below, the power is the reciprocal of an infinity.
-/

namespace RpnCalculator

namespace Double

/-! ## Relative errors -/

/-- A rounding multiplies a number by this factor at most, or divides it by it. -/
def roundingFactor : Rat := 1 + 1 / 2 ^ 52

theorem one_le_roundingFactor : 1 ≤ roundingFactor := by norm_num [roundingFactor]

theorem roundingFactor_pos : 0 < roundingFactor := one_pos.trans_le one_le_roundingFactor

/-- The factor of several roundings grows with their number. -/
theorem roundingFactor_pow_mul_le (k : Nat) : roundingFactor ^ k * (1 - k / 2 ^ 52) ≤ 1 := by
  have hbernoulli := one_add_mul_le_pow (show (-2 : Rat) ≤ -(1 / 2 ^ 52) by norm_num) k
  have hfactor : roundingFactor * (1 + -(1 / 2 ^ 52)) ≤ 1 := by norm_num [roundingFactor]
  calc roundingFactor ^ k * (1 - k / 2 ^ 52)
      = roundingFactor ^ k * (1 + k * -(1 / 2 ^ 52)) := by ring
    _ ≤ roundingFactor ^ k * (1 + -(1 / 2 ^ 52)) ^ k :=
      mul_le_mul_of_nonneg_left hbernoulli (pow_nonneg roundingFactor_pos.le k)
    _ = (roundingFactor * (1 + -(1 / 2 ^ 52))) ^ k := (mul_pow ..).symm
    _ ≤ 1 := pow_le_one₀ (by norm_num [roundingFactor]) hfactor

/-- So the factor of several roundings is undone by a number a little below one. -/
theorem mul_le_of_le_mul_roundingFactor {a b : Rat} {k : Nat} (hb : 0 ≤ b) (hk : k ≤ 2 ^ 52)
    (h : a ≤ b * roundingFactor ^ k) : a * (1 - k / 2 ^ 52) ≤ b := by
  have hcast : (k : Rat) ≤ 2 ^ 52 := by exact_mod_cast hk
  have hle : 0 ≤ 1 - (k : Rat) / 2 ^ 52 := by
    rw [sub_nonneg]
    exact div_le_one_of_le₀ hcast (by positivity)
  calc a * (1 - k / 2 ^ 52) ≤ b * roundingFactor ^ k * (1 - k / 2 ^ 52) :=
        mul_le_mul_of_nonneg_right h hle
    _ = b * (roundingFactor ^ k * (1 - k / 2 ^ 52)) := mul_assoc ..
    _ ≤ b := mul_le_of_le_one_right hb (roundingFactor_pow_mul_le k)

/-- Up to a thousand roundings change a number by less than a half. -/
theorem roundingFactor_pow_le {k : Nat} (hk : k ≤ 1000) : roundingFactor ^ k ≤ 3 / 2 := by
  have hbound := roundingFactor_pow_mul_le k
  have hcast : (k : Rat) ≤ 1000 := by exact_mod_cast hk
  have hpos := pow_pos roundingFactor_pos k
  have hsmall : (2 : Rat) / 3 ≤ 1 - k / 2 ^ 52 := by
    have : (k : Rat) / 2 ^ 52 ≤ 1000 / 2 ^ 52 := by gcongr
    linarith [show (1000 : Rat) / 2 ^ 52 ≤ 1 / 3 by norm_num]
  nlinarith

/-- The numbers that are far enough from the ends of the range. -/
def Medium (r : Rat) : Prop := 10 ^ (-307 : Int) ≤ r ∧ r ≤ 10 ^ (308 : Int)

theorem medium_zpow {n : Int} (hlow : -307 ≤ n) (hhigh : n ≤ 308) : Medium (10 ^ n) :=
  ⟨zpow_le_zpow_right₀ (by norm_num) hlow, zpow_le_zpow_right₀ (by norm_num) hhigh⟩

theorem Medium.pos {r : Rat} (h : Medium r) : 0 < r := lt_of_lt_of_le (by positivity) h.1

theorem step_zero_le : step 0 / 2 ≤ 10 ^ (-307 : Int) * (2 / 3) / 2 ^ 54 := by
  have hnat : 3 * 10 ^ 307 ≤ 2 ^ 1022 := by decide +kernel
  have hpow : (3 : Rat) * 10 ^ 307 ≤ 2 ^ 1022 := by exact_mod_cast hnat
  have hstep : step 0 / 2 = (2 ^ 1022 * 2 ^ 53)⁻¹ := by
    rw [step, show ((0 : Nat) : Int) - 1074 = -(1074 : Nat) by norm_num, zpow_neg, zpow_natCast,
      ← pow_add, pow_succ (2 : Rat) 1074, mul_inv, div_eq_mul_inv]
  have hten : (10 : Rat) ^ (-307 : Int) * (2 / 3) / 2 ^ 54 = (3 * 10 ^ 307 * 2 ^ 53)⁻¹ := by
    rw [zpow_neg, show (307 : Int) = (307 : Nat) by norm_num, zpow_natCast]
    generalize (10 : Rat) ^ 307 = a
    rw [pow_succ (2 : Rat) 53]
    generalize (2 : Rat) ^ 53 = b
    rw [mul_inv, mul_inv]
    ring
  rw [hstep, hten]
  exact inv_anti₀ (by positivity) (mul_le_mul_of_nonneg_right hpow (by positivity))

theorem ten_zpow_lt_overflow : (10 : Rat) ^ (308 : Int) * (3 / 2) < overflow := by
  have hnat : 3 * 10 ^ 308 < 2 * (18014398509481983 * 2 ^ 970) := by decide +kernel
  have hpow : (3 : Rat) * 10 ^ 308 < 2 * (18014398509481983 * 2 ^ 970) := by exact_mod_cast hnat
  rw [overflow, show (308 : Int) = (308 : Nat) by norm_num, zpow_natCast]
  generalize (10 : Rat) ^ 308 = a at *
  generalize (2 : Rat) ^ 970 = b at *
  norm_num
  linarith

/-- **A rounding changes a number by one factor**, as long as it is not near the ends. -/
theorem IsRounding.factor {r : Rat} {z : Double} (h : IsRounding r z)
    (hlow : 10 ^ (-307 : Int) * (2 / 3) ≤ |r|) (hhigh : |r| ≤ 10 ^ (308 : Int) * (3 / 2)) :
    z.isFinite = true ∧ |r| ≤ |z.value| * roundingFactor ∧ |z.value| ≤ |r| * roundingFactor := by
  have hover : |r| < overflow := hhigh.trans_lt ten_zpow_lt_overflow
  have hsmall : step 0 / 2 ≤ |r| / 2 ^ 54 := by
    refine step_zero_le.trans ?_
    gcongr
  obtain ⟨h₁, h₂⟩ := abs_le.mp ((abs_abs_sub_abs_le z.value r).trans (h.error hover))
  have hr := abs_nonneg r
  refine ⟨h.isFinite_iff.mpr hover, ?_, ?_⟩
  · have hbound : |r| * (1 - (1 / 2 ^ 53 + 1 / 2 ^ 54)) ≤ |z.value| := by linarith
    calc |r| ≤ |r| * ((1 - (1 / 2 ^ 53 + 1 / 2 ^ 54)) * roundingFactor) :=
          le_mul_of_one_le_right hr (by norm_num [roundingFactor])
      _ = |r| * (1 - (1 / 2 ^ 53 + 1 / 2 ^ 54)) * roundingFactor := by ring
      _ ≤ |z.value| * roundingFactor :=
          mul_le_mul_of_nonneg_right hbound roundingFactor_pos.le
  · calc |z.value| ≤ |r| * (1 + (1 / 2 ^ 53 + 1 / 2 ^ 54)) := by linarith
      _ ≤ |r| * roundingFactor :=
          mul_le_mul_of_nonneg_left (by norm_num [roundingFactor]) hr

/-- The double is finite and positive, and so many roundings away from the number at most. -/
structure Within (k : Nat) (r : Rat) (x : Double) : Prop where
  finite : x.isFinite = true
  le : r ≤ x.value * roundingFactor ^ k
  ge : x.value ≤ r * roundingFactor ^ k

namespace Within

variable {i j k : Nat} {r s : Rat} {x y z : Double}

theorem value_pos (h : Within k r x) (hr : 0 < r) : 0 < x.value :=
  (mul_pos_iff_of_pos_right (pow_pos roundingFactor_pos k)).mp (hr.trans_le h.le)

theorem mono (h : Within i r x) (hij : i ≤ j) (hr : 0 < r) : Within j r x := by
  have hpow : roundingFactor ^ i ≤ roundingFactor ^ j :=
    pow_le_pow_right₀ one_le_roundingFactor hij
  have hx := h.value_pos hr
  exact ⟨h.finite, h.le.trans (mul_le_mul_of_nonneg_left hpow hx.le),
    h.ge.trans (mul_le_mul_of_nonneg_left hpow hr.le)⟩

/-- An exact result that is some roundings away is rounded once more. -/
theorem of_isRounding {v : Rat} (h : IsRounding v z) (hr : Medium r) (hk : k ≤ 1000)
    (hle : r ≤ v * roundingFactor ^ k) (hge : v ≤ r * roundingFactor ^ k) :
    Within (k + 1) r z := by
  have hfactor := roundingFactor_pow_le hk
  have hpos := pow_pos roundingFactor_pos k
  have hv : 0 < v := (mul_pos_iff_of_pos_right hpos).mp (hr.pos.trans_le hle)
  have hlow : 10 ^ (-307 : Int) * (2 / 3) ≤ |v| := by
    rw [abs_of_pos hv]
    nlinarith [hr.1]
  have hhigh : |v| ≤ 10 ^ (308 : Int) * (3 / 2) := by
    rw [abs_of_pos hv]
    calc v ≤ r * roundingFactor ^ k := hge
      _ ≤ 10 ^ (308 : Int) * (3 / 2) := mul_le_mul hr.2 hfactor hpos.le (by positivity)
  obtain ⟨hfinite, h₁, h₂⟩ := h.factor hlow hhigh
  have hz : 0 ≤ z.value := value_nonneg fun hneg =>
    absurd ((h.negative_iff hv.ne').mp hneg) hv.not_gt
  rw [abs_of_pos hv, abs_of_nonneg hz] at h₁ h₂
  refine ⟨hfinite, ?_, ?_⟩
  · calc r ≤ v * roundingFactor ^ k := hle
      _ ≤ z.value * roundingFactor * roundingFactor ^ k := by gcongr
      _ = z.value * roundingFactor ^ (k + 1) := by ring
  · calc z.value ≤ v * roundingFactor := h₂
      _ ≤ r * roundingFactor ^ k * roundingFactor := by gcongr; exact roundingFactor_pos.le
      _ = r * roundingFactor ^ (k + 1) := by ring

/-- **A product is one rounding farther away than its factors together.** -/
theorem mul (hx : Within i r x) (hy : Within j s y) (hr : 0 < r) (hs : 0 < s) (hrs : Medium (r * s))
    (hij : i + j ≤ 1000) : Within (i + j + 1) (r * s) (x * y) := by
  have hxpos := hx.value_pos hr
  have hypos := hy.value_pos hs
  refine of_isRounding (isRounding_mul hx.finite hy.finite) hrs hij ?_ ?_
  · calc r * s ≤ x.value * roundingFactor ^ i * (y.value * roundingFactor ^ j) :=
          mul_le_mul hx.le hy.le hs.le (hr.le.trans hx.le)
      _ = x.value * y.value * roundingFactor ^ (i + j) := by ring
  · calc x.value * y.value ≤ r * roundingFactor ^ i * (s * roundingFactor ^ j) :=
          mul_le_mul hx.ge hy.ge hypos.le (hxpos.le.trans hx.ge)
      _ = r * s * roundingFactor ^ (i + j) := by ring

/-- And so is a quotient. -/
theorem div (hx : Within i r x) (hy : Within j s y) (hr : 0 < r) (hs : 0 < s) (hrs : Medium (r / s))
    (hij : i + j ≤ 1000) : Within (i + j + 1) (r / s) (x / y) := by
  have hxpos := hx.value_pos hr
  have hypos := hy.value_pos hs
  have hy0 : y.significand ≠ 0 := fun h => hypos.ne' (value_of_significand_eq_zero h)
  refine of_isRounding (isRounding_div hx.finite hy.finite hy0) hrs hij ?_ ?_
  · rw [div_le_iff₀ hs, div_mul_eq_mul_div, div_mul_eq_mul_div, le_div_iff₀ hypos]
    calc r * y.value ≤ x.value * roundingFactor ^ i * (s * roundingFactor ^ j) :=
          mul_le_mul hx.le hy.ge hypos.le (hr.le.trans hx.le)
      _ = x.value * roundingFactor ^ (i + j) * s := by ring
  · rw [div_le_iff₀ hypos, div_mul_eq_mul_div, div_mul_eq_mul_div, le_div_iff₀ hs]
    calc x.value * s ≤ r * roundingFactor ^ i * (y.value * roundingFactor ^ j) :=
          mul_le_mul hx.ge hy.le hs.le (hxpos.le.trans hx.ge)
      _ = r * roundingFactor ^ (i + j) * y.value := by ring

end Within

/-! ## Powers of ten -/

theorem within_one : Within 0 1 one := ⟨by decide, by simp [value_one], by simp [value_one]⟩

theorem within_ten : Within 0 10 ten := ⟨by decide, by simp [value_ten], by simp [value_ten]⟩

theorem medium_pow {n : Nat} (h : n ≤ 308) : Medium (10 ^ n) := by
  rw [← zpow_natCast]
  exact medium_zpow (by omega) (by omega)

theorem Within.mul_pow {i j a c : Nat} {x y : Double} (hx : Within i (10 ^ a) x)
    (hy : Within j (10 ^ c) y) (hexponent : a + c ≤ 308) (hcount : i + j ≤ 1000) :
    Within (i + j + 1) (10 ^ (a + c)) (x * y) := by
  rw [pow_add]
  exact hx.mul hy (by positivity) (by positivity) (pow_add (10 : Rat) a c ▸ medium_pow hexponent)
    hcount

/-- **Repeated squaring rounds as often as repeated multiplication**, if the roundings of a square
are counted twice. -/
theorem within_go {n : Nat} {r b : Double} {i j a c : Nat} (hn : n ≠ 0)
    (hr : Within i (10 ^ a) r) (hb : Within j (10 ^ c) b) (hexponent : a + c * n ≤ 308)
    (hcount : i + n * (j + 1) ≤ 1000) :
    Within (i + n * (j + 1)) (10 ^ (a + c * n)) (powNat.go r b n) := by
  induction n using Nat.strongRecOn generalizing r b i j a c with
  | ind n ih =>
    -- the exponent is its lowest bit and twice the rest
    obtain ⟨m, hm⟩ : ∃ m, m = n / 2 := ⟨_, rfl⟩
    obtain ⟨e, he⟩ : ∃ e, e = n % 2 := ⟨_, rfl⟩
    have hsplit : n = e + 2 * m := by omega
    have hpower : c * n = c * e + (c + c) * m := by
      rw [hsplit]
      ring
    have hroundings : n * (j + 1) = e * (j + 1) + m * (j + j + 1 + 1) := by
      rw [hsplit]
      ring
    obtain ⟨r', hr'⟩ : ∃ r', r' = if e = 1 then r * b else r := ⟨_, rfl⟩
    have hwithin : Within (i + e * (j + 1)) (10 ^ (a + c * e)) r' := by
      rw [hr']
      rcases (show e = 0 ∨ e = 1 by omega) with rfl | rfl
      · simpa using hr
      · rw [if_pos rfl, one_mul, mul_one, ← add_assoc]
        exact hr.mul_pow hb (by omega) (by omega)
    rw [powNat.go, ← he, ← hm, ← hr']
    split
    · rename_i h0
      rw [h0, mul_zero, add_zero] at hpower
      rw [h0, zero_mul, add_zero] at hroundings
      rwa [hpower, hroundings]
    · rename_i h0
      have hm0 := Nat.pos_of_ne_zero h0
      have hc : c + c ≤ (c + c) * m := Nat.le_mul_of_pos_right _ hm0
      have hj : j + j + 1 + 1 ≤ m * (j + j + 1 + 1) := Nat.le_mul_of_pos_left _ hm0
      have hsquare : Within (j + j + 1) (10 ^ (c + c)) (b * b) :=
        hb.mul_pow hb (by omega) (by omega)
      have hrest := ih m (by omega) h0 hwithin hsquare (by omega) (by omega)
      rw [hpower, hroundings, ← add_assoc, ← add_assoc]
      exact hrest

theorem within_powNat {n : Nat} (hn : n ≤ 308) : Within n (10 ^ n) (ten.powNat n) := by
  rcases Nat.eq_zero_or_pos n with rfl | hpos
  · have hone : ten.powNat 0 = one := by
      rw [powNat, powNat.go]
      simp
    rw [hone, pow_zero]
    exact within_one
  · have hgo := within_go (r := one) (b := ten) (i := 0) (j := 0) (a := 0) (c := 1) hpos.ne'
      (by simpa using within_one) (by simpa using within_ten) (by omega) (by omega)
    rw [powNat]
    simpa using hgo

/-- **The power of ten by which a mantissa is divided**, but for some roundings. -/
theorem within_powInt {p : Int} (hlow : -307 ≤ p) (hhigh : p ≤ 308) :
    Within 309 (10 ^ p) (ten.powInt p) := by
  unfold powInt
  split
  · rename_i hneg
    obtain ⟨n, rfl⟩ : ∃ n : Nat, p = -n := ⟨p.natAbs, by omega⟩
    have hpow := within_powNat (show n ≤ 308 by omega)
    rw [Int.natAbs_neg, Int.natAbs_natCast, zpow_neg, zpow_natCast, ← one_div]
    have hmedium : Medium (1 / 10 ^ n) := by
      rw [one_div, ← zpow_natCast, ← zpow_neg]
      exact medium_zpow (by omega) (by omega)
    exact (within_one.div hpow one_pos (by positivity) hmedium (by omega)).mono (by omega)
      hmedium.pos
  · obtain ⟨n, rfl⟩ := Int.eq_ofNat_of_zero_le (show 0 ≤ p by omega)
    rw [Int.natAbs_natCast, zpow_natCast]
    exact (within_powNat (by omega)).mono (by omega) (by positivity)

end Double

end RpnCalculator
