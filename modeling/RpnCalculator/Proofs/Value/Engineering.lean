import RpnCalculator.Proofs.Number.CommonLogarithm
import RpnCalculator.Proofs.Number.Notation
import RpnCalculator.Proofs.Number.Powers
import RpnCalculator.Value.Rendering

/-!
# What engineering notation shows

The mantissa is a quotient by a power of ten, and the exponent is the integer part of a logarithm
that was brought down to a multiple of three.  Both are computed with doubles, so neither is exact:
the quotient is nearly the quotient (`quotient_spec`), and the number is nearly between the power
and a thousand times the power (`engineeringExponent_spec`).

Rounding to decimals hides this as long as a unit of the last decimal is large enough.  A quotient
a little below one is then shown as one, and a quotient that is shown as a thousand is taken again
with the next exponent (`mantissa_withPoint`, `exists_mantissa_next`).  With more than twelve
decimals a mantissa below one is shown as it is.

At the lower end of the range the power is the reciprocal of a power that is out of range, and so
it is zero.  The quotient is an infinity, and that is what the text says (`engineering_of_lt`).
`Value.render_engineering` puts the cases together.
-/

namespace RpnCalculator

open Text

variable {x : Double} {p : Int} {decimals : Nat}

namespace Double

/-! ## The quotient -/

/-- A finite double that is not zero has a significand. -/
theorem significand_ne_zero (h : x.isZero = false) : x.significand ≠ 0 := by
  rw [isZero, decide_eq_false_iff_not] at h
  have hF : 0 < fractionSize := by decide
  have hsplit := Nat.div_add_mod x.magnitude fractionSize
  unfold significand exponentField fraction
  split
  · rename_i hfield
    rw [hfield, Nat.mul_zero] at hsplit
    omega
  · omega

theorem negative_iff_value_neg (hx : x.isFinite = true) (h0 : x.significand ≠ 0) :
    x.negative = true ↔ x.value < 0 :=
  (isRounding_self hx).negative_iff (abs_pos.mp (abs_value_pos h0))

/-- **The quotient by the computed power is the quotient by the power**, but for some roundings,
and it has the sign of the number. -/
theorem quotient_spec (hx : x.isFinite = true) (h0 : x.significand ≠ 0) (hp : -307 ≤ p)
    (hp' : p ≤ 308) {r : Rat} (hr : r = |x.value| / 10 ^ p) (hlow : 1 / 2 ≤ r) (hhigh : r ≤ 2000) :
    (x / ten.powInt p).isFinite = true ∧ (x / ten.powInt p).negative = x.negative ∧
      r * (1 - 1 / 10 ^ 13) ≤ |(x / ten.powInt p).value| ∧
      |(x / ten.powInt p).value| * (1 - 1 / 10 ^ 13) ≤ r := by
  have hwithin := within_powInt hp hp'
  have hten : (0 : Rat) < 10 ^ p := by positivity
  have hpos := hwithin.value_pos hten
  have hw0 : (ten.powInt p).significand ≠ 0 := fun h => hpos.ne' (value_of_significand_eq_zero h)
  have hround := isRounding_div hx hwithin.finite hw0
  obtain ⟨v, hv⟩ : ∃ v, v = x.value / (ten.powInt p).value := ⟨_, rfl⟩
  have hvabs : |v| = |x.value| / (ten.powInt p).value := by rw [hv, abs_div, abs_of_pos hpos]
  have hxpos := abs_value_pos h0
  rw [← hv] at hround
  -- the power is some roundings off, and so is what is rounded
  have hle : r ≤ |v| * roundingFactor ^ 309 := by
    rw [hr, hvabs, div_mul_eq_mul_div, div_le_div_iff₀ hten hpos, mul_assoc]
    refine mul_le_mul_of_nonneg_left ?_ hxpos.le
    rw [mul_comm]
    exact hwithin.ge
  have hge : |v| ≤ r * roundingFactor ^ 309 := by
    rw [hr, hvabs, div_mul_eq_mul_div, div_le_div_iff₀ hpos hten, mul_assoc]
    refine mul_le_mul_of_nonneg_left ?_ hxpos.le
    rw [mul_comm]
    exact hwithin.le
  have hfactor := roundingFactor_pow_le (show 309 ≤ 1000 by decide)
  have hsmall : (10 : Rat) ^ (-307 : Int) * (2 / 3) ≤ |v| := by
    have hmono : (10 : Rat) ^ (-307 : Int) ≤ 10 ^ (-1 : Int) :=
      zpow_le_zpow_right₀ (by norm_num) (by norm_num)
    rw [zpow_neg_one] at hmono
    nlinarith [abs_nonneg v]
  have hlarge : |v| ≤ 10 ^ (308 : Int) * (3 / 2) := by
    have hmono : (10 : Rat) ^ (4 : Int) ≤ 10 ^ (308 : Int) :=
      zpow_le_zpow_right₀ (by norm_num) (by norm_num)
    calc |v| ≤ 2000 * (3 / 2) :=
          hge.trans (mul_le_mul hhigh hfactor (pow_nonneg roundingFactor_pos.le _) (by norm_num))
      _ ≤ 10 ^ (4 : Int) * (3 / 2) := by norm_num
      _ ≤ 10 ^ (308 : Int) * (3 / 2) := by gcongr
  obtain ⟨hfinite, h₁, h₂⟩ := hround.factor hsmall hlarge
  have hv0 : v ≠ 0 := abs_pos.mp (lt_of_lt_of_le (by positivity) hsmall)
  have hone : (1 : Rat) - 1 / 10 ^ 13 ≤ 1 - (310 : Nat) / 2 ^ 52 := by norm_num
  refine ⟨hfinite, ?_, (mul_le_mul_of_nonneg_left hone (by linarith)).trans
    (mul_le_of_le_mul_roundingFactor (abs_nonneg _) (by norm_num) ?_),
    (mul_le_mul_of_nonneg_left hone (abs_nonneg _)).trans
    (mul_le_of_le_mul_roundingFactor (by linarith) (by norm_num) ?_)⟩
  · rw [Bool.eq_iff_iff, hround.negative_iff hv0, negative_iff_value_neg hx h0, hv,
      div_lt_iff₀ hpos, zero_mul]
  · rw [pow_succ', ← mul_assoc]
    exact hle.trans (mul_le_mul_of_nonneg_right h₁ (pow_nonneg roundingFactor_pos.le _))
  · rw [pow_succ, ← mul_assoc]
    exact h₂.trans (mul_le_mul_of_nonneg_right hge roundingFactor_pos.le)

/-- Far below, the computed power is the reciprocal of an infinity. -/
theorem powInt_eq_zero (hp : -324 ≤ p) (hp' : p ≤ -309) (hdvd : 3 ∣ p) : ten.powInt p = zero := by
  have hall : ∀ n < 6, ten.powInt (-309 - 3 * (n : Nat)) = zero := by decide +kernel
  obtain ⟨n, rfl⟩ : ∃ n : Nat, p = -309 - 3 * n := ⟨((-309 - p) / 3).toNat, by omega⟩
  exact hall n (by omega)

/-! ## The exponent -/

/-- The exponent that is read off the logarithm. -/
def engineeringExponent (x : Double) : Int := 3 * (x.logarithmFloor / 3)

theorem engineeringExponent_spec (hx : x.isFinite = true) (h0 : x.significand ≠ 0) :
    10 ^ x.engineeringExponent * (1 - 2 / 10 ^ 13) ≤ |x.value| ∧
      |x.value| * (1 - 2 / 10 ^ 13) < 10 ^ (x.engineeringExponent + 3) := by
  obtain ⟨hle, hlt⟩ := logarithmFloor_spec hx h0
  have hbelow : (10 : Rat) ^ x.engineeringExponent ≤ 10 ^ x.logarithmFloor :=
    zpow_le_zpow_right₀ (by norm_num) (by unfold engineeringExponent; omega)
  have habove : (10 : Rat) ^ (x.logarithmFloor + 1) ≤ 10 ^ (x.engineeringExponent + 3) :=
    zpow_le_zpow_right₀ (by norm_num) (by unfold engineeringExponent; omega)
  exact ⟨(mul_le_mul_of_nonneg_right hbelow (by norm_num)).trans hle, hlt.trans_le habove⟩

/-- The number is nearly between one and a thousand if it is divided by the power. -/
theorem quotient_bounds (hx : x.isFinite = true) (h0 : x.significand ≠ 0) :
    1 - 2 / 10 ^ 13 ≤ |x.value| / 10 ^ x.engineeringExponent ∧
      |x.value| / 10 ^ x.engineeringExponent * (1 - 2 / 10 ^ 13) < 1000 := by
  obtain ⟨hle, hlt⟩ := engineeringExponent_spec hx h0
  have hten : (0 : Rat) < 10 ^ x.engineeringExponent := by positivity
  rw [zpow_add₀ (by norm_num)] at hlt
  constructor
  · rwa [le_div_iff₀ hten, mul_comm]
  · rw [div_mul_eq_mul_div, div_lt_iff₀ hten, mul_comm 1000]
    exact hlt

theorem three_dvd_engineeringExponent (x : Double) : 3 ∣ x.engineeringExponent := ⟨_, rfl⟩

/-- A number that has clearly reached a power of ten has no exponent far below it. -/
theorem lt_engineeringExponent (hx : x.isFinite = true) (h0 : x.significand ≠ 0)
    (h : 10 ^ p ≤ |x.value| * (1 - 2 / 10 ^ 13)) : p < x.engineeringExponent + 3 :=
  (zpow_lt_zpow_iff_right₀ (by norm_num)).mp (h.trans_lt (engineeringExponent_spec hx h0).2)

/-- A number that has clearly not reached a power of ten has a lower exponent. -/
theorem engineeringExponent_lt (hx : x.isFinite = true) (h0 : x.significand ≠ 0)
    (h : |x.value| < 10 ^ p * (1 - 2 / 10 ^ 13)) : x.engineeringExponent < p := by
  have hlt := (engineeringExponent_spec hx h0).1.trans_lt h
  exact (zpow_lt_zpow_iff_right₀ (by norm_num)).mp (lt_of_mul_lt_mul_right hlt (by norm_num))

theorem engineeringExponent_bounds (hx : x.isFinite = true) (h0 : x.significand ≠ 0) :
    -324 ≤ x.engineeringExponent ∧ x.engineeringExponent ≤ 306 := by
  obtain ⟨hlow, hhigh⟩ := abs_value_bounds hx h0
  obtain ⟨k, hk⟩ := three_dvd_engineeringExponent x
  have hten : (0 : Rat) < 10 ^ (308 : Int) := by positivity
  have hten' : (0 : Rat) < 10 ^ (-324 : Int) := by positivity
  have h₁ := lt_engineeringExponent (p := -324) hx h0 (by
    generalize (10 : Rat) ^ (-324 : Int) = a at hlow hten' ⊢
    norm_num
    linarith)
  have h₂ := engineeringExponent_lt (p := 308 + 1) hx h0 (by
    rw [zpow_add_one₀ (by norm_num)]
    generalize (10 : Rat) ^ (308 : Int) = a at hhigh hten ⊢
    norm_num
    linarith)
  omega

end Double

/-! ## Mantissas -/

/-- A mantissa with so many decimals, for a number that it shows nearly.  It is below a thousand,
and it is not below one if a unit of the last decimal is larger than what the computation is
off. -/
structure Mantissa (decimals : Nat) (r : Rat) (text : List Char) (m : Rat) : Prop where
  text : DecimalText decimals text m
  lt : m < 1000
  ge : 1 - 1 / 10 ^ 12 ≤ m
  one_le : decimals ≤ 12 → 1 ≤ m
  near : |m - r| ≤ 1 / (2 * 10 ^ decimals) + r / 10 ^ 12

/-- **A quotient that is nearly one at least is shown as a mantissa**, unless it rounds up to a
thousand. -/
theorem mantissa_withPoint {r q : Rat} {n : Nat} (hn : |(n : Rat) - q * 10 ^ decimals| ≤ 1 / 2)
    (hlt : n < 1000 * 10 ^ decimals) (hq : 1 - 4 / 10 ^ 13 - 1 / (2000 * 10 ^ decimals) ≤ q)
    (hle : q * (1 - 1 / 10 ^ 13) ≤ r) (hge : r * (1 - 1 / 10 ^ 13) ≤ q) :
    Mantissa decimals r (withPoint decimals n) (n / 10 ^ decimals) := by
  obtain ⟨T, hT⟩ : ∃ T : Nat, T = 10 ^ decimals := ⟨_, rfl⟩
  have hcast : (10 : Rat) ^ decimals = T := by
    rw [hT]
    push_cast
    rfl
  have hT1 : 1 ≤ T := hT ▸ Nat.one_le_pow _ _ (by decide)
  have hT1' : (1 : Rat) ≤ T := by exact_mod_cast hT1
  have hTpos : (0 : Rat) < T := by linarith
  have hdecimal := decimalText_withPoint decimals n
  rw [hcast] at hn hq hdecimal ⊢
  rw [← hT] at hlt
  have hqT : T - 4 / 10 ^ 13 * T - 1 / 2000 ≤ q * T := by
    calc (T - 4 / 10 ^ 13 * T - 1 / 2000 : Rat)
        = (1 - 4 / 10 ^ 13 - 1 / (2000 * T)) * T := by field_simp
      _ ≤ q * T := mul_le_mul_of_nonneg_right hq hTpos.le
  have hn' := abs_le.mp hn
  have hone : decimals ≤ 12 → (T : Rat) ≤ n := by
    intro h
    have hT12 : (T : Rat) ≤ 10 ^ 12 := by exact_mod_cast hT ▸ Nat.pow_le_pow_right (by decide) h
    by_contra hcon
    have hsucc : (n : Rat) + 1 ≤ T := by exact_mod_cast not_le.mp hcon
    linarith
  refine ⟨hdecimal, ?_, ?_, fun h => ?_, ?_⟩
  · rw [div_lt_iff₀ hTpos]
    exact_mod_cast hlt
  · rw [le_div_iff₀ hTpos]
    rcases Nat.lt_or_ge 12 decimals with h | h
    · have hT13 : (10 : Rat) ^ 13 ≤ T := by
        exact_mod_cast hT ▸ Nat.pow_le_pow_right (by decide) h
      linarith
    · exact (mul_le_of_le_one_left hTpos.le (by norm_num)).trans (hone h)
  · rw [le_div_iff₀ hTpos, one_mul]
    exact hone h
  · have hround : |(n : Rat) / T - q| ≤ 1 / (2 * T) := by
      have hsplit : (n : Rat) / T - q = (n - q * T) / T := by field_simp
      rw [hsplit, abs_div, abs_of_pos hTpos, ← div_div]
      gcongr
    have hquotient : |q - r| ≤ r / 10 ^ 12 := by
      have hq0 : 0 ≤ q := by
        have hsmall : 1 / (2000 * (T : Rat)) ≤ 1 / 2000 := by gcongr; linarith
        norm_num at hq hsmall
        linarith
      rw [abs_le]
      norm_num at hle hge ⊢
      constructor <;> linarith
    rw [hcast]
    exact (abs_sub_le _ q _).trans (add_le_add hround hquotient)

namespace Double

/-! ## Engineering notation -/

/-- The quotient as it is written, with the sign of the number in front. -/
theorem exists_fixed_quotient (hx : x.isFinite = true) (h0 : x.significand ≠ 0) (hp : -307 ≤ p)
    (hp' : p ≤ 308) {r : Rat} (hr : r = |x.value| / 10 ^ p) (hlow : 1 / 2 ≤ r) (hhigh : r ≤ 2000)
    (decimals : Nat) : ∃ (q : Rat) (n : Nat),
      fixed decimals (x / ten.powInt p) = x.sign ++ withPoint decimals n ∧
        |(n : Rat) - q * 10 ^ decimals| ≤ 1 / 2 ∧ r * (1 - 1 / 10 ^ 13) ≤ q ∧
        q * (1 - 1 / 10 ^ 13) ≤ r := by
  obtain ⟨hfinite, hnegative, hge, hle⟩ := quotient_spec hx h0 hp hp' hr hlow hhigh
  obtain ⟨n, hfixed, hn⟩ := exists_fixed_eq hfinite decimals
  have hsign : sign (x / ten.powInt p) = x.sign := by rw [sign, hnegative, sign]
  exact ⟨_, n, hsign ▸ hfixed, hn, hge, hle⟩

/-- The choice between the two exponents, by the first digits that are written. -/
theorem engineering_eq (h0 : x.isZero = false) {cs : List Char} (hcs : Unsigned cs)
    (htext : fixed decimals (x / ten.powInt x.engineeringExponent) = x.sign ++ cs) :
    x.engineering decimals =
      if ['1', '0', '0', '0'].isPrefixOf cs then
        (fixed decimals (x / ten.powInt (x.engineeringExponent + 3)), x.engineeringExponent + 3)
      else (x.sign ++ cs, x.engineeringExponent) := by
  unfold engineering
  rw [if_neg (by rw [h0]; exact Bool.false_ne_true)]
  dsimp only
  rw [← engineeringExponent, htext, dropMinus_sign_append x hcs]

/-- A quotient that rounds up to a thousand is nearly one with the next exponent. -/
theorem exists_mantissa_next (hx : x.isFinite = true) (h0 : x.significand ≠ 0) (hp : -307 ≤ p)
    (hp' : p ≤ 305) {r : Rat} (hr : r = |x.value| / 10 ^ p)
    (hlow : 1000 - 1 / (2 * 10 ^ decimals) - 1 / 10 ^ 10 ≤ r) (hhigh : r ≤ 1001) :
    ∃ (mantissa : List Char) (m : Rat),
      fixed decimals (x / ten.powInt (p + 3)) = x.sign ++ mantissa ∧
        Mantissa decimals (|x.value| / 10 ^ (p + 3)) mantissa m := by
  have hT : (1 : Rat) ≤ 10 ^ decimals := one_le_pow₀ (by norm_num)
  have hsmall : 1 / (2 * (10 : Rat) ^ decimals) ≤ 1 / 2 :=
    one_div_le_one_div_of_le two_pos (by linarith)
  have hr' : r / 1000 = |x.value| / 10 ^ (p + 3) := by
    rw [hr, zpow_add₀ (by norm_num), ← div_div]
    norm_num
  obtain ⟨q, n, htext, hn, hge, hle⟩ := exists_fixed_quotient hx h0 (p := p + 3) (by omega)
    (by omega) hr' (by linarith) (by linarith) decimals
  have hn' := abs_le.mp hn
  refine ⟨_, _, htext, hr' ▸ mantissa_withPoint hn ?_ ?_ hle hge⟩
  · have hq : q ≤ 2 := by linarith
    have hqT := mul_le_mul_of_nonneg_right hq (zero_le_one.trans hT)
    have hcast : (n : Rat) < 1000 * 10 ^ decimals := by linarith
    exact_mod_cast hcast
  · have hhalf : 1 / (2000 * (10 : Rat) ^ decimals) = 1 / (2 * 10 ^ decimals) / 1000 := by
      rw [div_div]
      ring
    rw [hhalf]
    linarith

/-- What rounds up to a thousand is at most half a unit of the last decimal below it. -/
theorem le_of_rounds_to_thousand {q : Rat} {n : Nat}
    (hn : |(n : Rat) - q * 10 ^ decimals| ≤ 1 / 2) (hcarry : n / 10 ^ decimals = 1000) :
    1000 - 1 / (2 * 10 ^ decimals) ≤ q := by
  have hcast : (1000 : Rat) * 10 ^ decimals ≤ n := by
    exact_mod_cast (Nat.le_div_iff_mul_le (by positivity)).mp hcarry.ge
  have hcancel : 1 / (2 * (10 : Rat) ^ decimals) * 10 ^ decimals = 1 / 2 := by field_simp
  have hT : (0 : Rat) < 10 ^ decimals := by positivity
  refine le_of_mul_le_mul_right ?_ hT
  rw [sub_mul, hcancel]
  linarith [(abs_le.mp hn).2]

/-- The largest doubles are only a few hundred times a power of a thousand. -/
theorem exponent_le_of_mul_le (hx : x.isFinite = true) (h0 : x.significand ≠ 0)
    (h : 999 * 10 ^ p ≤ |x.value|) : p ≤ 305 := by
  by_contra hcon
  have hpow : (10 : Rat) ^ (306 : Int) ≤ 10 ^ p := zpow_le_zpow_right₀ (by norm_num) (by omega)
  have hpos : (0 : Rat) < 10 ^ (306 : Int) := by positivity
  have hover := (abs_value_bounds hx h0).2
  rw [show (308 : Int) = 306 + 2 by norm_num, zpow_add₀ (by norm_num)] at hover
  generalize (10 : Rat) ^ (306 : Int) = a at hover hpos hpow
  norm_num at hover
  linarith

/-- **Every number that is not too small is written with a mantissa**, and the exponent is a
multiple of three.  If the first quotient rounds up to a thousand, the next exponent leaves a
quotient that is nearly one. -/
theorem exists_engineering_eq (hx : x.isFinite = true) (h0 : x.isZero = false)
    (hp : -306 ≤ x.engineeringExponent) (decimals : Nat) :
    ∃ (p : Int) (mantissa : List Char) (m : Rat),
      x.engineering decimals = (x.sign ++ mantissa, p) ∧ 3 ∣ p ∧
        Mantissa decimals (|x.value| / 10 ^ p) mantissa m := by
  have hs := significand_ne_zero h0
  obtain ⟨p, hpeq⟩ : ∃ p, p = x.engineeringExponent := ⟨_, rfl⟩
  obtain ⟨r, hr⟩ : ∃ r, r = |x.value| / 10 ^ p := ⟨_, rfl⟩
  obtain ⟨hlow, hhigh⟩ := quotient_bounds hx hs
  have hp306 := (engineeringExponent_bounds hx hs).2
  have hdvd := three_dvd_engineeringExponent x
  rw [← hpeq] at hp hp306 hdvd hlow hhigh
  rw [← hr] at hlow hhigh
  obtain ⟨q, n, htext, hn, hge, hle⟩ := exists_fixed_quotient hx hs (p := p) (by omega) (by omega)
    hr (by linarith) (by linarith) decimals
  have hT : (1 : Rat) ≤ 10 ^ decimals := one_le_pow₀ (by norm_num)
  have hwhole : n / 10 ^ decimals ≤ 1000 := by
    have hq : q ≤ 1000 + 2 / 5 := by linarith
    have hqT := mul_le_mul_of_nonneg_right hq (zero_le_one.trans hT)
    have hcast : (n : Rat) < 1001 * 10 ^ decimals := by linarith [(abs_le.mp hn).2]
    exact Nat.lt_succ_iff.mp ((Nat.div_lt_iff_lt_mul (by positivity)).mpr (by exact_mod_cast hcast))
  rw [engineering_eq h0 (unsigned_withPoint decimals n) (hpeq ▸ htext), ← hpeq]
  split
  · rename_i hprefix
    have hq := le_of_rounds_to_thousand hn ((isPrefixOf_withPoint hwhole).mp hprefix)
    have hhalf : 0 < 1 / (2 * (10 : Rat) ^ decimals) := by positivity
    have hsmall : 1 / (2 * (10 : Rat) ^ decimals) ≤ 1 / 2 :=
      one_div_le_one_div_of_le two_pos (by linarith)
    have hthousand : 1000 - 1 / (2 * 10 ^ decimals) - 1 / 10 ^ 10 ≤ r := by linarith
    have hp305 : p ≤ 305 := by
      refine exponent_le_of_mul_le hx hs ?_
      rw [← le_div_iff₀ (by positivity), ← hr]
      linarith
    obtain ⟨mantissa, m, htext', hm⟩ :=
      exists_mantissa_next hx hs (by omega) hp305 hr hthousand (by linarith)
    exact ⟨p + 3, mantissa, m, by rw [htext'], by omega, hm⟩
  · rename_i hprefix
    have hlt : n < 1000 * 10 ^ decimals := (Nat.div_lt_iff_lt_mul (by positivity)).mp
      (lt_of_le_of_ne hwhole fun h => hprefix ((isPrefixOf_withPoint hwhole).mpr h))
    refine ⟨p, _, _, rfl, hdvd, hr ▸ mantissa_withPoint hn hlt ?_ hle hge⟩
    have hpos : 0 < 1 / (2000 * (10 : Rat) ^ decimals) := by positivity
    linarith

/-- **A number that is too small is divided by zero**, whatever the decimals. -/
theorem engineering_of_lt (hx : x.isFinite = true) (h0 : x.isZero = false)
    (hp : x.engineeringExponent < -306) (decimals : Nat) :
    x.engineering decimals = (x.sign ++ ['i', 'n', 'f'], x.engineeringExponent) := by
  have hs := significand_ne_zero h0
  have hlow := (engineeringExponent_bounds hx hs).1
  have hdvd := three_dvd_engineeringExponent x
  have htext : fixed decimals (x / ten.powInt x.engineeringExponent) =
      x.sign ++ ['i', 'n', 'f'] := by
    rw [powInt_eq_zero hlow (by omega) hdvd,
      div_of_significand_eq_zero hx (by decide) hs (by decide), sign]
    cases x.negative <;> rfl
  have hunsigned : Unsigned ['i', 'n', 'f'] := by
    intro c hc
    cases hc
    decide
  rw [engineering_eq h0 hunsigned htext]
  rfl

theorem sign_eq (hx : x.isFinite = true) (h0 : x.isZero = false) :
    x.sign = if x.value < 0 then ['-'] else [] := by
  rw [sign]
  simp only [negative_iff_value_neg hx (significand_ne_zero h0)]

end Double

/-! ## Exponents -/

/-- The letter, a sign that is always there, and two digits at least. -/
inductive ScaleText : List Char → Int → Prop where
  | mk {ds : List Char} (negative : Bool) (hd : Numeral ds) (hl : 2 ≤ ds.length) :
    ScaleText ('E' :: (if negative then '-' else '+') :: ds)
      (if negative then -(number 10 ds : Int) else number 10 ds)

theorem number_replicate_zeros (k : Nat) (ds : List Char) :
    number 10 (List.replicate k '0' ++ ds) = number 10 ds := by
  induction k with
  | zero => rfl
  | succ k ih =>
    rw [List.replicate_succ, List.cons_append, ← ih]
    rfl

theorem scaleText_exponentText (e : Int) : ScaleText (Display.exponentText e) e := by
  obtain ⟨ds, hds⟩ : ∃ ds, ds = List.replicate (2 - (writeDecimal e.natAbs).length) '0' ++
      writeDecimal e.natAbs := ⟨_, rfl⟩
  have hnumeral := numeral_writeDecimal e.natAbs
  have hd : Numeral ds := by
    refine ⟨by rw [hds]; exact List.append_ne_nil_of_right_ne_nil _ hnumeral.1, ?_⟩
    rw [hds, List.forall_mem_append]
    exact ⟨fun c hc => by rw [List.eq_of_mem_replicate hc]; rfl, hnumeral.2⟩
  have hl : 2 ≤ ds.length := by
    rw [hds, List.length_append, List.length_replicate]
    omega
  have hnumber : number 10 ds = e.natAbs := by
    rw [hds, number_replicate_zeros, number_writeDecimal]
  have htext := ScaleText.mk (decide (e < 0)) hd hl
  rw [hnumber] at htext
  unfold Display.exponentText
  dsimp only
  rw [← hds]
  rcases lt_or_ge e 0 with h | h
  · rw [decide_eq_true h, if_pos rfl, if_pos rfl, show -(e.natAbs : Int) = e by omega] at htext
    rwa [if_pos h]
  · rw [decide_eq_false h.not_gt, if_neg Bool.false_ne_true, if_neg Bool.false_ne_true,
      show (e.natAbs : Int) = e by omega] at htext
    rwa [if_neg h.not_gt]

/-! ## Texts -/

namespace Value

open Double

/-- **Engineering notation**: the sign of the number, a mantissa, and an exponent that is a multiple
of three.  The mantissa is between one and a thousand and shows the number nearly, except that
with more than twelve decimals it can be a little below one.  Below `10 ^ (-306)` the mantissa is
an infinity. -/
theorem render_engineering {d : Display} (hd : d.float = .engineering) (hx : x.isFinite = true)
    (h0 : x.isZero = false) :
    ∃ (p : Int) (mantissa scale : List Char),
      (Value.float x).render d =
          String.ofList ((if x.value < 0 then ['-'] else []) ++ mantissa ++ scale) ∧
        3 ∣ p ∧ ScaleText scale p ∧
        (10 ^ (-306 : Int) * (1 - 1 / 10 ^ 12) < |x.value| ∧
            (∃ m, Mantissa d.decimals (|x.value| / 10 ^ p) mantissa m) ∨
          |x.value| * (1 - 1 / 10 ^ 12) < 10 ^ (-306 : Int) ∧ mantissa = ['i', 'n', 'f']) := by
  have hs := significand_ne_zero h0
  obtain ⟨hnumber, hinfinite⟩ := isNaN_isInfinite_of_isFinite hx
  have hrender : (Value.float x).render d = String.ofList ((x.engineering d.decimals).1 ++
      Display.exponentText (x.engineering d.decimals).2) := by
    show String.ofList (d.floatText x) = _
    rw [Display.floatText, hnumber, hinfinite, if_neg Bool.false_ne_true,
      if_neg Bool.false_ne_true, hd]
  obtain ⟨hle, hlt⟩ := engineeringExponent_spec hx hs
  rw [hrender, ← sign_eq hx h0]
  rcases lt_or_ge x.engineeringExponent (-306) with hp | hp
  · rw [engineering_of_lt hx h0 hp]
    refine ⟨_, _, _, rfl, three_dvd_engineeringExponent x, scaleText_exponentText _,
      .inr ⟨?_, rfl⟩⟩
    have hdvd := three_dvd_engineeringExponent x
    calc |x.value| * (1 - 1 / 10 ^ 12) ≤ |x.value| * (1 - 2 / 10 ^ 13) :=
          mul_le_mul_of_nonneg_left (by norm_num) (abs_nonneg _)
      _ < 10 ^ (x.engineeringExponent + 3) := hlt
      _ ≤ 10 ^ (-306 : Int) := zpow_le_zpow_right₀ (by norm_num) (by omega)
  · obtain ⟨p, mantissa, m, heq, hdvd, hm⟩ := exists_engineering_eq hx h0 hp d.decimals
    rw [heq]
    refine ⟨_, _, _, rfl, hdvd, scaleText_exponentText p, .inl ⟨?_, m, hm⟩⟩
    calc (10 : Rat) ^ (-306 : Int) * (1 - 1 / 10 ^ 12) < 10 ^ (-306 : Int) * (1 - 2 / 10 ^ 13) :=
          mul_lt_mul_of_pos_left (by norm_num) (by positivity)
      _ ≤ 10 ^ x.engineeringExponent * (1 - 2 / 10 ^ 13) :=
          mul_le_mul_of_nonneg_right (zpow_le_zpow_right₀ (by norm_num) hp) (by norm_num)
      _ ≤ |x.value| := hle

/-- A mantissa that rounds up to a thousand. -/
theorem render_engineering_carry :
    (Value.float ⟨0xC08F3FFDF3B645A2⟩).render { float := .engineering, decimals := 2 } =
        "-1.00E+03" ∧
      ∃ (p : Int) (mantissa scale : List Char),
        (Value.float ⟨0xC08F3FFDF3B645A2⟩).render { float := .engineering, decimals := 2 } =
            String.ofList ((if (⟨0xC08F3FFDF3B645A2⟩ : Double).value < 0 then ['-'] else []) ++
              mantissa ++ scale) ∧
          3 ∣ p ∧ ScaleText scale p ∧
          (10 ^ (-306 : Int) * (1 - 1 / 10 ^ 12) < |(⟨0xC08F3FFDF3B645A2⟩ : Double).value| ∧
              (∃ m, Mantissa 2 (|(⟨0xC08F3FFDF3B645A2⟩ : Double).value| / 10 ^ p) mantissa m) ∨
            |(⟨0xC08F3FFDF3B645A2⟩ : Double).value| * (1 - 1 / 10 ^ 12) < 10 ^ (-306 : Int) ∧
              mantissa = ['i', 'n', 'f']) :=
  ⟨by decide +kernel, render_engineering rfl (by decide) (by decide)⟩

/-- The smallest double is not written with a mantissa. -/
theorem render_engineering_smallest :
    (⟨1⟩ : Double).isFinite = true ∧ (⟨1⟩ : Double).isZero = false ∧
      ¬∃ (p : Int) (mantissa scale : List Char) (m : Rat),
        (Value.float ⟨1⟩).render { float := .engineering, decimals := 2 } =
            String.ofList ((if (⟨1⟩ : Double).value < 0 then ['-'] else []) ++ mantissa ++ scale) ∧
          3 ∣ p ∧ ScaleText scale p ∧ DecimalText 2 mantissa m ∧ 1 ≤ m ∧ m < 1000 := by
  refine ⟨by decide, by decide, ?_⟩
  rintro ⟨p, mantissa, scale, m, hrender, -, -, htext, -, -⟩
  have hinfinite : (Value.float ⟨1⟩).render { float := .engineering, decimals := 2 } =
      String.ofList ['i', 'n', 'f', 'E', '-', '3', '2', '4'] := by decide +kernel
  rw [hinfinite, String.ofList_inj] at hrender
  -- a mantissa begins with a digit
  obtain ⟨c, cs, rfl, hc⟩ : ∃ c cs, mantissa = c :: cs ∧ isDigit c = true := by
    cases htext with
    | whole h _ => cases h
    | point _ hw _ _ =>
      obtain ⟨c, cs, rfl⟩ := List.exists_cons_of_ne_nil hw.1
      exact ⟨c, _, rfl, hw.2 c List.mem_cons_self⟩
  split at hrender
  · cases hrender
  · rw [List.nil_append, List.cons_append, List.cons.injEq] at hrender
    rw [← hrender.1] at hc
    exact absurd hc (by decide)

end Value

end RpnCalculator
