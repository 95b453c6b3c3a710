import RpnCalculator.Proofs.Number.Machine
import RpnCalculator.Proofs.Number.Truncation

/-!
# Operations that round

The sum, the difference, the product and the quotient of two finite doubles are the exact ones,
rounded (`isRounding_add`, `isRounding_sub`, `isRounding_mul`, `isRounding_div`).  `IsRounding`
says this of one number and one double, whatever computed the double, so that a chain of
operations is followed by exact numbers with an error from each step (`IsRounding.error`).

The machine brings the operands to one form first.  A product and a quotient have enough bits to be
rounded once; of a quotient they have to be provided for by a shift (`measures_divCore`).  A sum
can lose its leading bits and is brought to the grid from below before it is rounded
(`isRounding_round`).  Zeros are cases of their own in each operation, because they have no
significand.
-/

namespace RpnCalculator

namespace Double

variable {r : Rat} {x y : Double}

/-! ## What a number is rounded to -/

theorem abs_signed (s : Bool) (r : Rat) : |signed s r| = |r| := by
  cases s
  · rfl
  · exact abs_neg r

/-- A double is what a number is rounded to.  It has the sign of the number, and its magnitude
counts the steps to which the number is rounded.  A number that is too large goes to an infinity. -/
structure IsRounding (r : Rat) (x : Double) : Prop where
  sign : signed x.negative |r| = r
  steps : ∃ e q, Rounded |r| e q ∧ x.magnitude = min (q + e * fractionSize) infinityMagnitude

theorem isRounding_ofMagnitude (s : Bool) {e q : Nat} (h : Rounded r e q) (hr : 0 ≤ r) :
    IsRounding (signed s r) (ofMagnitude s (min (q + e * fractionSize) infinityMagnitude)) := by
  have hbelow : min (q + e * fractionSize) infinityMagnitude < signBit :=
    (Nat.min_le_right ..).trans_lt (by decide)
  have habs : |signed s r| = r := (abs_signed s r).trans (abs_of_nonneg hr)
  constructor
  · rw [negative_ofMagnitude s hbelow, habs]
  · rw [habs]
    exact ⟨e, q, h, magnitude_ofMagnitude s hbelow⟩

/-- Integers of 53 bits are far from being too large. -/
theorem bits_lt_overflow : (2 : Rat) ^ 53 < overflow := by
  have hpow : (1 : Rat) ≤ 2 ^ 970 := one_le_pow₀ one_le_two
  rw [overflow]
  generalize (2 : Rat) ^ 970 = p at hpow
  norm_num
  linarith

namespace IsRounding

theorem isNaN (h : IsRounding r x) : x.isNaN = false := by
  obtain ⟨e, q, -, hmagnitude⟩ := h.steps
  rw [Double.isNaN, hmagnitude, decide_eq_false_iff_not, Nat.not_lt]
  exact Nat.min_le_right ..

theorem isFinite_iff (h : IsRounding r x) : x.isFinite = true ↔ |r| < overflow := by
  obtain ⟨e, q, hround, hmagnitude⟩ := h.steps
  rw [← hround.lt_infinity_iff, isFinite, hmagnitude, decide_eq_true_iff]
  omega

/-- The sign is known but for zero. -/
theorem negative_iff (h : IsRounding r x) (hr : r ≠ 0) : x.negative = true ↔ r < 0 := by
  have habs := abs_pos.mpr hr
  have hsign := h.sign
  unfold signed at hsign
  split at hsign
  · rename_i hneg
    exact iff_of_true hneg (by linarith)
  · rename_i hneg
    exact iff_of_false hneg (by linarith)

/-- The magnitude of a number that is not too large is a whole number of steps. -/
theorem size_eq (h : IsRounding r x) (hr : |r| < overflow) :
    ∃ e q : Nat, Rounded |r| e q ∧ size x.magnitude = q * step e := by
  obtain ⟨e, q, hround, hmagnitude⟩ := h.steps
  refine ⟨e, q, hround, ?_⟩
  rw [hmagnitude, Nat.min_eq_left (hround.lt_infinity_iff.mpr hr).le, hround.size_eq]

/-- The distance to the number is that of the magnitudes. -/
theorem abs_value_sub_eq (h : IsRounding r x) : |x.value - r| = |size x.magnitude - (|r|)| := by
  conv_lhs => rw [← h.sign]
  rw [abs_value_sub rfl]
  unfold signed
  split
  · rw [neg_neg]
  · rfl

/-- **What rounding changes.**  A normal number changes by half a place at most, and every number
by half of the smallest step at most more than that. -/
theorem error (h : IsRounding r x) (hr : |r| < overflow) :
    |x.value - r| ≤ |r| / 2 ^ 53 + step 0 / 2 := by
  obtain ⟨e, q, hround, hsize⟩ := h.size_eq hr
  have hstep := step_pos e
  have hstep0 := step_pos 0
  rw [h.abs_value_sub_eq, hsize]
  refine hround.near.trans ?_
  rcases hround.le with rfl | hle
  · have := abs_nonneg r
    linarith [show 0 ≤ |r| / 2 ^ 53 by positivity]
  · have hF : (fractionSize : Rat) = 2 ^ 52 := by norm_num [fractionSize]
    rw [hF] at hle
    have : step e / 2 ≤ |r| / 2 ^ 53 := by
      rw [div_le_div_iff₀ two_pos (by positivity)]
      linarith
    linarith

/-- The same for numbers below a bound. -/
theorem near {M : Rat} (h : IsRounding r x) (hr : |r| ≤ M) (hM : M ≤ 2 ^ 52) :
    x.isFinite = true ∧ |x.value - r| ≤ M / 2 ^ 53 + 1 / 2 ^ 100 := by
  have hover : |r| < overflow := by
    linarith [bits_lt_overflow, show (2 : Rat) ^ 52 ≤ 2 ^ 53 by norm_num]
  have hstep : step 0 / 2 ≤ 1 / 2 ^ 100 := by
    have hle : step 0 ≤ 2 ^ (-100 : Int) := zpow_le_zpow_right₀ one_le_two (by norm_num)
    have hpos := step_pos 0
    norm_num at hle ⊢
    linarith
  refine ⟨h.isFinite_iff.mpr hover, (h.error hover).trans ?_⟩
  have hscaled : |r| / 2 ^ 53 ≤ M / 2 ^ 53 := by gcongr
  linarith

theorem roundsTo (h : IsRounding r x) (hr : |r| < overflow) : RoundsTo r x := by
  obtain ⟨e, q, hround, hmagnitude⟩ := h.steps
  have hlt := hround.lt_infinity_iff.mpr hr
  have hbelow : q + e * fractionSize < signBit := hlt.trans (by decide)
  have hx : x = ofMagnitude x.negative (q + e * fractionSize) := by
    refine eq_of_magnitude_eq (negative_ofMagnitude _ hbelow).symm ?_
    rw [magnitude_ofMagnitude _ hbelow, hmagnitude, Nat.min_eq_left hlt.le]
  have hspec : RoundsTo (signed x.negative |r|) (ofMagnitude x.negative (q + e * fractionSize)) :=
    roundsTo_signed hround (abs_nonneg r) hlt
  rwa [h.sign, ← hx] at hspec

/-- A number that is a double is not changed. -/
theorem value_eq (h : IsRounding r x) (hr : |r| < overflow) (hy : y.isFinite = true)
    (hyr : y.value = r) : x.value = r := by
  have hnearest := (h.roundsTo hr).nearest y hy
  rw [hyr, sub_self, abs_zero] at hnearest
  exact sub_eq_zero.mp (abs_nonpos_iff.mp hnearest)

end IsRounding

theorem isRounding_ofRatio (s : Bool) (n : Nat) {d : Nat} (hd : 0 < d) :
    IsRounding (signed s (n / d)) (ofRatio s n d) := by
  by_cases hn : n = 0
  · have hround : Rounded 0 0 0 := .of_lt le_rfl (half_pos (step_pos 0))
    have hzero := isRounding_ofMagnitude s hround le_rfl
    rw [ofRatio, if_pos hn, hn, Nat.cast_zero, zero_div]
    exact hzero
  · obtain ⟨e, q, hround, heq⟩ := exists_rounded s hn hd
    rw [heq]
    exact isRounding_ofMagnitude s hround (by positivity)

/-! ## The operations -/

open Float.Model Float.Model.UnpackedFloat

/-- What the machine computes is the result if it is the rounding of a number. -/
theorem IsRounding.result₂_eq {f : Float} (h : IsRounding r (ofFloat f)) :
    IsRounding r (result₂ x y f) := by
  rwa [result₂, h.isNaN, if_neg Bool.false_ne_true]

theorem value_eq_signed (x : Double) :
    x.value = signed x.negative (x.significand * 2 ^ x.scale) := by
  rw [← size_magnitude]
  rfl

/-- The value of a constant, from the parts of its bits. -/
theorem value_eq_of_parts {m : Nat} {e : Int} (hsignificand : x.significand = m)
    (hscale : x.scale = e) (hnegative : x.negative = false) : x.value = m * 2 ^ e := by
  rw [value_eq_signed, hsignificand, hscale, hnegative]
  rfl

@[simp] theorem signed_zero (s : Bool) : signed s 0 = 0 := by
  cases s <;> simp [signed]

theorem signed_mul_signed (s t : Bool) (a b : Rat) :
    signed s a * signed t b = signed (s != t) (a * b) := by
  cases s <;> cases t <;> simp [signed]

theorem signOf_mul_signOf (s t : Bool) : signOf s * signOf t = signOf (s != t) := by
  cases s <;> cases t <;> rfl

theorem signOf_div_signOf (s t : Bool) : signOf s / signOf t = signOf (s != t) := by
  cases s <;> cases t <;> rfl

/-- A double has a significand of full length or the lowest scale. -/
theorem fractionSize_le_significand_or (x : Double) :
    52 ≤ x.significand.log2 ∨ x.scale = -1074 := by
  by_cases h : x.exponentField = 0
  · right
    rw [scale, h]
    rfl
  · left
    have hle : 2 ^ 52 ≤ x.significand := by
      rw [significand, if_neg h]
      exact Nat.le_add_right _ _
    exact (Nat.le_log2 (by omega)).mpr hle

theorem unpacked_of_significand_ne_zero (h : x.significand ≠ 0) :
    x.unpacked = .finite (signOf x.negative) x.significand x.scale (Nat.pos_of_ne_zero h) :=
  dif_neg h

theorem unpacked_of_significand_eq_zero (h : x.significand = 0) :
    x.unpacked = .zero (signOf x.negative) := dif_pos h

/-- Zero is rounded to itself. -/
theorem isRounding_zero (s : Bool) : IsRounding 0 (ofMagnitude s 0) := by
  have hround : Rounded 0 0 0 := .of_lt le_rfl (half_pos (step_pos 0))
  have hzero := isRounding_ofMagnitude s hround le_rfl
  cases s <;> simpa [signed] using hzero

theorem isRounding_pack_zero (s : Bool) :
    IsRounding 0 (ofPacked (UnpackedFloat.pack .binary64 (.zero (signOf s)))) := by
  show IsRounding 0 (ofPacked (packedZero .binary64 (signOf s)))
  rw [ofPacked_packedZero]
  exact isRounding_zero s

theorem isRounding_roundWithAccuracy (s : Bool) {m n d : Nat} {e : Int} {a : Accuracy}
    (hd : 0 < d) (h : Measures (.ofMantissaAndAccuracy m a) n d)
    (he : e ≤ max ((m.log2 : Int) + e - 52) (-1074)) (hr : r = signed s ((n : Rat) / d * 2 ^ e)) :
    IsRounding r
      (ofPacked (UnpackedFloat.pack .binary64 (roundWithAccuracy .binary64 (signOf s) m e a))) := by
  obtain ⟨e', q, hround, heq⟩ := exists_rounded_roundWithAccuracy s hd h he
  rw [heq, hr]
  exact isRounding_ofMagnitude s hround (by positivity)

theorem log2_mul_le {m n : Nat} (hm : m ≠ 0) (hn : n ≠ 0) : m.log2 ≤ (m * n).log2 := by
  rw [Nat.le_log2 (Nat.mul_ne_zero hm hn)]
  exact (Nat.log2_self_le hm).trans (Nat.le_mul_of_pos_right m (Nat.pos_of_ne_zero hn))

/-- What is zero times a double. -/
theorem mul_zero_unpacked (s : Bool) (x : Double) :
    UnpackedFloat.mul .binary64 (.zero (signOf s)) x.unpacked = .zero (signOf (s != x.negative)) ∧
      UnpackedFloat.mul .binary64 x.unpacked (.zero (signOf s)) =
        .zero (signOf (x.negative != s)) := by
  rw [← signOf_mul_signOf, ← signOf_mul_signOf]
  unfold unpacked
  split <;> exact ⟨rfl, rfl⟩

/-- **A product is rounded.** -/
theorem isRounding_mul (hx : x.isFinite = true) (hy : y.isFinite = true) :
    IsRounding (x.value * y.value) (x * y) := by
  refine IsRounding.result₂_eq ?_
  show IsRounding _ (ofPacked (UnpackedFloat.pack .binary64
    (UnpackedFloat.mul .binary64 x.toFloat.toModel.unpack y.toFloat.toModel.unpack)))
  rw [unpack_toFloat hx, unpack_toFloat hy, value_eq_signed x, value_eq_signed y, signed_mul_signed]
  by_cases hx0 : x.significand = 0
  · rw [unpacked_of_significand_eq_zero hx0, (mul_zero_unpacked _ _).1, hx0, Nat.cast_zero,
      zero_mul, zero_mul, signed_zero]
    exact isRounding_pack_zero _
  by_cases hy0 : y.significand = 0
  · rw [unpacked_of_significand_eq_zero hy0, (mul_zero_unpacked _ _).2, hy0, Nat.cast_zero,
      zero_mul, mul_zero, signed_zero]
    exact isRounding_pack_zero _
  rw [unpacked_of_significand_ne_zero hx0, unpacked_of_significand_ne_zero hy0]
  show IsRounding _ (ofPacked (UnpackedFloat.pack .binary64 (roundWithAccuracy .binary64
    (signOf x.negative * signOf y.negative) (x.significand * y.significand) (x.scale + y.scale)
    .exact)))
  rw [signOf_mul_signOf]
  refine isRounding_roundWithAccuracy _ Nat.one_pos (.exact _) ?_ ?_
  · have hxlog := log2_mul_le hx0 hy0
    have hylog := log2_mul_le hy0 hx0
    rw [Nat.mul_comm] at hylog
    rcases x.fractionSize_le_significand_or with h | h <;>
      rcases y.fractionSize_le_significand_or with h' | h' <;> omega
  · rw [zpow_add₀ two_ne_zero]
    push_cast
    rw [div_one]
    congr 1
    ring

theorem signed_div_signed (s t : Bool) (a b : Rat) :
    signed s a / signed t b = signed (s != t) (a / b) := by
  cases s <;> cases t <;> simp [signed, neg_div, div_neg]

theorem measures_divCore (m₁ m₂ : Nat) (e₁ e₂ : Int) (h₁ : m₁ ≠ 0) (h₂ : m₂ ≠ 0) :
    ∃ k : Nat, ∃ t : Int, divCore .binary64 m₁ e₁ m₂ e₂ =
        (m₁ * 2 ^ k / m₂, t, accuracyOfFraction (m₁ * 2 ^ k % m₂) m₂) ∧
      e₁ - e₂ = t + k ∧ (t ≤ -1074 ∨ 52 ≤ (m₁ * 2 ^ k / m₂).log2) := by
  obtain ⟨t, ht⟩ : ∃ t, t = min (e₁ - e₂)
      (max ((m₁.log2 : Int) + e₁ - (m₂.log2 + e₂) - 53) (-1074)) := ⟨_, rfl⟩
  have htarget : min (e₁ - e₂) (Format.binary64.targetExponent
      (totalExponent m₁ e₁ - totalExponent m₂ e₂)) = t := by
    rw [ht]
    simp only [Format.targetExponent, totalExponent, Format.mantissaBits, Format.minExponent]
    norm_num
    omega
  obtain ⟨k, hk⟩ := Int.eq_ofNat_of_zero_le (show 0 ≤ e₁ - e₂ - t by omega)
  refine ⟨k, t, ?_, by omega, ?_⟩
  · unfold divCore
    rw [htarget]
    dsimp only
    rw [hk, Int.toNat_natCast, Nat.shiftLeft_eq]
  · rcases le_or_gt t (-1074) with hsmall | hlarge
    · exact .inl hsmall
    right
    -- the quotient has as many bits as the shift provides for
    have hm₁ := Nat.log2_self_le h₁
    have hm₂ : m₂ < 2 ^ (m₂.log2 + 1) := Nat.lt_log2_self
    have hpow : 2 ^ 52 * 2 ^ (m₂.log2 + 1) ≤ 2 ^ m₁.log2 * 2 ^ k := by
      rw [← Nat.pow_add, ← Nat.pow_add]
      exact Nat.pow_le_pow_right two_pos (by omega)
    have hle : 2 ^ 52 ≤ m₁ * 2 ^ k / m₂ := by
      rw [Nat.le_div_iff_mul_le (Nat.pos_of_ne_zero h₂)]
      calc 2 ^ 52 * m₂ ≤ 2 ^ 52 * 2 ^ (m₂.log2 + 1) := Nat.mul_le_mul_left _ hm₂.le
        _ ≤ 2 ^ m₁.log2 * 2 ^ k := hpow
        _ ≤ m₁ * 2 ^ k := Nat.mul_le_mul_right _ hm₁
    exact (Nat.le_log2 (by omega)).mpr hle

/-- **A quotient is rounded.** -/
theorem isRounding_div (hx : x.isFinite = true) (hy : y.isFinite = true) (hy0 : y.significand ≠ 0) :
    IsRounding (x.value / y.value) (x / y) := by
  refine IsRounding.result₂_eq ?_
  show IsRounding _ (ofPacked (UnpackedFloat.pack .binary64
    (UnpackedFloat.div .binary64 x.toFloat.toModel.unpack y.toFloat.toModel.unpack)))
  rw [unpack_toFloat hx, unpack_toFloat hy, value_eq_signed x, value_eq_signed y, signed_div_signed,
    unpacked_of_significand_ne_zero hy0]
  by_cases hx0 : x.significand = 0
  · rw [unpacked_of_significand_eq_zero hx0, hx0, Nat.cast_zero, zero_mul, zero_div, signed_zero]
    show IsRounding _ (ofPacked (UnpackedFloat.pack .binary64
      (.zero (signOf x.negative / signOf y.negative))))
    rw [signOf_div_signOf]
    exact isRounding_pack_zero _
  rw [unpacked_of_significand_ne_zero hx0]
  obtain ⟨k, t, hcore, ht, hlog⟩ :=
    measures_divCore x.significand y.significand x.scale y.scale hx0 hy0
  show IsRounding _ (ofPacked (UnpackedFloat.pack .binary64
    (let core := divCore .binary64 x.significand x.scale y.significand y.scale
     roundWithAccuracy .binary64 (signOf x.negative / signOf y.negative) core.1 core.2.1
      core.2.2)))
  rw [signOf_div_signOf, hcore]
  dsimp only
  refine isRounding_roundWithAccuracy _ (Nat.pos_of_ne_zero hy0)
    (.quotient _ (Nat.pos_of_ne_zero hy0)) (by omega) ?_
  have hscale : (2 : Rat) ^ x.scale = 2 ^ y.scale * (2 ^ t * 2 ^ k) := by
    rw [← zpow_natCast, ← zpow_add₀ two_ne_zero, ← zpow_add₀ two_ne_zero]
    congr 1
    omega
  have hy0' : (y.significand : Rat) ≠ 0 := by exact_mod_cast hy0
  congr 1
  rw [hscale]
  push_cast
  field_simp

/-- Bits are added at the end of a mantissa to lower its exponent. -/
theorem decreaseExponent_fst (m : Nat) {e t : Int} (h : t ≤ e) :
    ((decreaseExponent m e t).1 : Rat) * 2 ^ t = m * 2 ^ e := by
  obtain ⟨k, hk⟩ := Int.eq_ofNat_of_zero_le (sub_nonneg.mpr h)
  unfold decreaseExponent
  dsimp only
  rw [hk, Int.toNat_natCast, Nat.shiftLeft_eq, show e = t + k by omega, zpow_add₀ two_ne_zero,
    zpow_natCast]
  push_cast
  ring

theorem isRounding_round (s : Bool) {m : Nat} (hm : m ≠ 0) (e : Int) :
    IsRounding (signed s (m * 2 ^ e)) (ofPacked (UnpackedFloat.pack .binary64
      (UnpackedFloat.round .binary64 (signOf s) m e))) := by
  obtain ⟨t, ht⟩ : ∃ t, t = max ((m.log2 : Int) + e - 52) (-1074) := ⟨_, rfl⟩
  obtain ⟨k, hk⟩ : ∃ k, k = (e - t).toNat := ⟨_, rfl⟩
  have hlog : (m * 2 ^ k).log2 = m.log2 + k := by
    rw [Nat.log2_eq_iff (by positivity), Nat.add_right_comm, Nat.pow_add, Nat.pow_add]
    exact ⟨Nat.mul_le_mul_right _ (Nat.log2_self_le hm),
      Nat.mul_lt_mul_of_pos_right Nat.lt_log2_self (by positivity)⟩
  unfold UnpackedFloat.round decreaseExponent
  rw [targetExponent_eq, ← ht]
  dsimp only
  rw [← hk, Nat.shiftLeft_eq]
  refine isRounding_roundWithAccuracy s Nat.one_pos (.exact _) (by omega) ?_
  have hscale : (2 : Rat) ^ e = 2 ^ k * 2 ^ (e - k) := by
    rw [← zpow_natCast, ← zpow_add₀ two_ne_zero]
    congr 1
    omega
  rw [hscale]
  push_cast
  rw [div_one, mul_assoc]

theorem isRounding_normalize (m e : Int) :
    IsRounding (m * 2 ^ e) (ofPacked (UnpackedFloat.pack .binary64
      (UnpackedFloat.normalize .binary64 m e .positive))) := by
  unfold UnpackedFloat.normalize
  rcases lt_trichotomy m 0 with h | rfl | h
  · rw [Int.compare_eq_lt.mpr h]
    have hround := isRounding_round true (show (-m).toNat ≠ 0 by omega) e
    have hcast : (((-m).toNat : Nat) : Rat) = -m := by
      exact_mod_cast Int.toNat_of_nonneg (show 0 ≤ -m by omega)
    rwa [signed, if_pos rfl, hcast, neg_mul, neg_neg] at hround
  · rw [Int.cast_zero, zero_mul]
    exact isRounding_pack_zero false
  · rw [Int.compare_eq_gt.mpr h]
    have hround := isRounding_round false (show m.toNat ≠ 0 by omega) e
    have hcast : ((m.toNat : Nat) : Rat) = m := by
      exact_mod_cast Int.toNat_of_nonneg h.le
    rwa [signed, if_neg Bool.false_ne_true, hcast] at hround

/-- A whole number of steps is rounded to itself. -/
theorem Rounded.of_steps {e q : Nat} (hq : q < 2 * fractionSize) (h : e = 0 ∨ fractionSize ≤ q) :
    Rounded (q * step e) e q := by
  have hstep := step_pos e
  have hself : roundRatio q 1 = q := by rw [roundRatio_of_dvd (Nat.mod_one q) one_pos, Nat.div_one]
  have hround : Rounded ((q : Rat) * step e) e (roundRatio q 1) := by
    refine .of_quotient one_pos (by simp) ?_ (h.imp_right fun hle => ?_)
    · exact mul_lt_mul_of_pos_right (by exact_mod_cast hq) hstep
    · exact mul_le_mul_of_nonneg_right (by exact_mod_cast hle) hstep.le
  rwa [hself] at hround

/-- A double is rounded to itself, and its negative to the double with the other sign. -/
theorem isRounding_ofMagnitude_size (hx : x.isFinite = true) (s : Bool) :
    IsRounding (signed s (size x.magnitude)) (ofMagnitude s x.magnitude) := by
  rw [isFinite, decide_eq_true_iff] at hx
  obtain ⟨e, q, hk, hq, he, hsize⟩ := exists_steps x.magnitude
  have hround := isRounding_ofMagnitude s (Rounded.of_steps hq he) (hsize ▸ size_nonneg _)
  rwa [← hk, Nat.min_eq_left hx.le, ← hsize] at hround

theorem isRounding_self (hx : x.isFinite = true) : IsRounding x.value x := by
  have hround := isRounding_ofMagnitude_size hx x.negative
  rwa [ofMagnitude_self hx] at hround

theorem apply_signOf (s : Bool) (n : Int) : (((signOf s).apply n : Int) : Rat) = signed s n := by
  cases s <;> simp [signOf, Sign.apply, signed]

/-- The value of a double in units below its scale. -/
theorem value_eq_aligned (x : Double) {t : Int} (h : t ≤ x.scale) :
    x.value = ((signOf x.negative).apply ((decreaseExponent x.significand x.scale t).1 : Int) : Int)
      * 2 ^ t := by
  rw [value_eq_signed, ← decreaseExponent_fst _ h, apply_signOf]
  unfold signed
  split <;> simp

theorem value_of_significand_eq_zero (h : x.significand = 0) : x.value = 0 := by
  rw [value_eq_signed, h, Nat.cast_zero, zero_mul, signed_zero]

/-- **A sum is rounded.** -/
theorem isRounding_add (hx : x.isFinite = true) (hy : y.isFinite = true) :
    IsRounding (x.value + y.value) (x + y) := by
  refine IsRounding.result₂_eq ?_
  show IsRounding _ (ofPacked (UnpackedFloat.pack .binary64
    (UnpackedFloat.add .binary64 x.toFloat.toModel.unpack y.toFloat.toModel.unpack)))
  rw [unpack_toFloat hx, unpack_toFloat hy]
  by_cases hx0 : x.significand = 0
  · rw [value_of_significand_eq_zero hx0, zero_add, unpacked_of_significand_eq_zero hx0]
    by_cases hy0 : y.significand = 0
    · rw [value_of_significand_eq_zero hy0, unpacked_of_significand_eq_zero hy0]
      have hadd : UnpackedFloat.add .binary64 (.zero (signOf x.negative))
          (.zero (signOf y.negative)) = .zero (signOf (x.negative && y.negative)) := by
        cases x.negative <;> cases y.negative <;> rfl
      rw [hadd]
      exact isRounding_pack_zero _
    · have hadd : UnpackedFloat.add .binary64 (.zero (signOf x.negative)) y.unpacked =
          y.unpacked := by
        rw [unpacked_of_significand_ne_zero hy0]
        rfl
      rw [hadd, ofPacked_pack_unpacked hy]
      exact isRounding_self hy
  by_cases hy0 : y.significand = 0
  · have hadd : UnpackedFloat.add .binary64 x.unpacked y.unpacked = x.unpacked := by
      rw [unpacked_of_significand_ne_zero hx0, unpacked_of_significand_eq_zero hy0]
      rfl
    rw [value_of_significand_eq_zero hy0, add_zero, hadd, ofPacked_pack_unpacked hx]
    exact isRounding_self hx
  rw [unpacked_of_significand_ne_zero hx0, unpacked_of_significand_ne_zero hy0,
    value_eq_aligned x (min_le_left _ y.scale), value_eq_aligned y (min_le_right x.scale _),
    ← add_mul, ← Int.cast_add]
  exact isRounding_normalize _ _

/-- **A difference is rounded.** -/
theorem isRounding_sub (hx : x.isFinite = true) (hy : y.isFinite = true) :
    IsRounding (x.value - y.value) (x - y) := by
  refine IsRounding.result₂_eq ?_
  show IsRounding _ (ofPacked (UnpackedFloat.pack .binary64
    (UnpackedFloat.sub .binary64 x.toFloat.toModel.unpack y.toFloat.toModel.unpack)))
  rw [unpack_toFloat hx, unpack_toFloat hy]
  by_cases hy0 : y.significand = 0
  · rw [value_of_significand_eq_zero hy0, sub_zero, unpacked_of_significand_eq_zero hy0]
    by_cases hx0 : x.significand = 0
    · rw [value_of_significand_eq_zero hx0, unpacked_of_significand_eq_zero hx0]
      have hsub : UnpackedFloat.sub .binary64 (.zero (signOf x.negative))
          (.zero (signOf y.negative)) = .zero (signOf (x.negative && !y.negative)) := by
        cases x.negative <;> cases y.negative <;> rfl
      rw [hsub]
      exact isRounding_pack_zero _
    · have hsub : UnpackedFloat.sub .binary64 x.unpacked (.zero (signOf y.negative)) =
          x.unpacked := by
        rw [unpacked_of_significand_ne_zero hx0]
        rfl
      rw [hsub, ofPacked_pack_unpacked hx]
      exact isRounding_self hx
  by_cases hx0 : x.significand = 0
  · have hsub : UnpackedFloat.sub .binary64 x.unpacked y.unpacked =
        carried (signOf !y.negative) (⟨y.significand, false, false⟩, y.scale) := by
      rw [unpacked_of_significand_eq_zero hx0, unpacked_of_significand_ne_zero hy0]
      unfold carried
      rw [dif_neg hy0]
      cases y.negative <;> rfl
    have hneg : 0 - y.value = signed (!y.negative) (size y.magnitude) := by
      rw [zero_sub, value]
      cases y.negative <;> simp [signed]
    rw [value_of_significand_eq_zero hx0, hsub, ofPacked_pack_parts hy, hneg]
    exact isRounding_ofMagnitude_size hy _
  rw [unpacked_of_significand_ne_zero hx0, unpacked_of_significand_ne_zero hy0,
    value_eq_aligned x (min_le_left _ y.scale), value_eq_aligned y (min_le_right x.scale _),
    ← sub_mul, ← Int.cast_sub]
  exact isRounding_normalize _ _

/-- What the machine computes is the result if it is an infinity. -/
theorem result₂_eq_infinity {f : Float} {s : Bool}
    (h : ofFloat f = ofMagnitude s infinityMagnitude) :
    result₂ x y f = ofMagnitude s infinityMagnitude := by
  have hnumber : (ofMagnitude s infinityMagnitude).isNaN = false := by cases s <;> decide
  rw [result₂, h, hnumber, if_neg Bool.false_ne_true]

/-- A quotient by zero is an infinity. -/
theorem div_of_significand_eq_zero (hx : x.isFinite = true) (hy : y.isFinite = true)
    (hx0 : x.significand ≠ 0) (hy0 : y.significand = 0) :
    x / y = ofMagnitude (x.negative != y.negative) infinityMagnitude := by
  refine result₂_eq_infinity ?_
  show ofPacked (UnpackedFloat.pack .binary64
    (UnpackedFloat.div .binary64 x.toFloat.toModel.unpack y.toFloat.toModel.unpack)) = _
  rw [unpack_toFloat hx, unpack_toFloat hy, unpacked_of_significand_ne_zero hx0,
    unpacked_of_significand_eq_zero hy0]
  show ofPacked (packedInfinity .binary64 (signOf x.negative / signOf y.negative)) = _
  rw [signOf_div_signOf, ofPacked_packedInfinity]

/-- Integers of up to 64 bits are rounded. -/
theorem isRounding_ofInt {n : Int} (hn : n.natAbs.log2 < 64) : IsRounding n (ofInt n) := by
  have hround := isRounding_ofRatio (decide (n < 0)) n.natAbs one_pos
  have hsigned : signed (decide (n < 0)) ((n.natAbs : Rat) / (1 : Nat)) = n := by
    rw [Nat.cast_one, div_one, Nat.cast_natAbs, Int.cast_abs, signed]
    rcases lt_or_ge n 0 with h | h
    · have hcast : (n : Rat) < 0 := by exact_mod_cast h
      rw [if_pos (decide_eq_true h), abs_of_neg hcast, neg_neg]
    · have hcast : (0 : Rat) ≤ n := by exact_mod_cast h
      rw [if_neg (by simpa using h), abs_of_nonneg hcast]
  rw [hsigned] at hround
  rwa [ofInt, ofSigned_of_log2_lt _ hn]

end Double

end RpnCalculator
