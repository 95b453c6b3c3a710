import RpnCalculator.Proofs.Number.Nearest

/-!
# The whole part of a number

A number loses its fraction in three places: a rational by dividing its parts, a float that
becomes an integer by dividing the two numbers of its ratio, and a float that stays one by
clearing bits.  `Truncates` says what all three come to, and only one integer fits it
(`Truncates.unique`).  That is why it makes no difference in which order a number loses its
fraction and changes its kind.
-/

namespace RpnCalculator

/-- The integer is the number without its fraction: it is not longer than the number, less than
one shorter, and not of the other sign. -/
structure Truncates (r : Rat) (n : Int) : Prop where
  le : |(n : Rat)| ≤ |r|
  lt : |r| < |(n : Rat)| + 1
  sign : 0 ≤ r * n

namespace Truncates

variable {r : Rat} {m n : Int}

theorem intCast (n : Int) : Truncates n n := ⟨le_rfl, lt_add_one _, mul_self_nonneg _⟩

/-- Both the number and the integer can be given a sign. -/
theorem signed {s : Rat} {k : Nat} (hle : (k : Rat) ≤ s) (hlt : s < k + 1) (negative : Bool) :
    Truncates (Double.signed negative s) (if negative then -(k : Int) else k) := by
  have hk : (0 : Rat) ≤ k := Nat.cast_nonneg k
  have hs : 0 ≤ s := hk.trans hle
  cases negative
  · refine ⟨?_, ?_, ?_⟩ <;> simp [Double.signed, abs_of_nonneg hs, hle, hlt, mul_nonneg hs hk]
  · refine ⟨?_, ?_, ?_⟩ <;> simp [Double.signed, abs_of_nonneg hs, hle, hlt, mul_nonneg hs hk]

/-- **A number has one whole part.** -/
theorem unique (hm : Truncates r m) (hn : Truncates r n) : m = n := by
  have hlen : |m| = |n| := by
    have h₁ : |(m : Rat)| < |(n : Rat)| + 1 := hm.le.trans_lt hn.lt
    have h₂ : |(n : Rat)| < |(m : Rat)| + 1 := hn.le.trans_lt hm.lt
    have h₁' : |m| < |n| + 1 := by exact_mod_cast h₁
    have h₂' : |n| < |m| + 1 := by exact_mod_cast h₂
    omega
  rcases abs_eq_abs.mp hlen with h | rfl
  · exact h
  -- of two opposite integers only zero has the sign of a number twice
  have hsign := hm.sign
  rw [Int.cast_neg, mul_neg, neg_nonneg] at hsign
  rcases mul_eq_zero.mp (le_antisymm hsign hn.sign) with rfl | hzero
  · have hle := hn.le
    rw [abs_zero, abs_nonpos_iff, Int.cast_eq_zero] at hle
    rw [hle, neg_zero]
  · rw [Int.cast_eq_zero.mp hzero, neg_zero]

/-- What is left over is less than one, and has the sign of the number. -/
theorem rest (h : Truncates r n) :
    |r - n| < 1 ∧ (r - n = 0 ∨ 0 < r - n ∧ 0 < r ∨ r - n < 0 ∧ r < 0) := by
  obtain ⟨hle, hlt, hsign⟩ := h
  rcases lt_trichotomy r 0 with hr | rfl | hr
  · have hn : (n : Rat) ≤ 0 := nonpos_of_mul_nonneg_right hsign hr
    rw [abs_of_nonpos hn, abs_of_neg hr] at hle hlt
    refine ⟨abs_lt.mpr ⟨by linarith, by linarith⟩, ?_⟩
    rcases (show r - n ≤ 0 by linarith).lt_or_eq with h | h
    · exact .inr (.inr ⟨h, hr⟩)
    · exact .inl h
  · rw [abs_zero, abs_nonpos_iff] at hle
    simp [hle]
  · have hn : (0 : Rat) ≤ n := nonneg_of_mul_nonneg_right hsign hr
    rw [abs_of_nonneg hn, abs_of_pos hr] at hle hlt
    refine ⟨abs_lt.mpr ⟨by linarith, by linarith⟩, ?_⟩
    rcases (show 0 ≤ r - n by linarith).lt_or_eq with h | h
    · exact .inr (.inl ⟨h, hr⟩)
    · exact .inl h.symm

end Truncates

/-! ## Quotients -/

/-- A quotient of natural numbers is rounded down. -/
theorem natCast_div_bounds (n : Nat) {d : Nat} (hd : 0 < d) :
    ((n / d : Nat) : Rat) ≤ n / d ∧ (n : Rat) / d < (n / d : Nat) + 1 := by
  have hpos : (0 : Rat) < d := by exact_mod_cast hd
  rw [le_div_iff₀ hpos, div_lt_iff₀ hpos]
  constructor
  · exact_mod_cast Nat.div_mul_le_self n d
  · rw [mul_comm]
    exact_mod_cast Nat.lt_mul_div_succ n hd

/-- An integer is divided toward zero. -/
theorem truncates_div (m : Int) {d : Nat} (hd : 0 < d) : Truncates ((m : Rat) / d) (m.tdiv d) := by
  obtain ⟨k, rfl | rfl⟩ := m.eq_nat_or_neg
  · obtain ⟨hle, hlt⟩ := natCast_div_bounds k hd
    exact Truncates.signed hle hlt false
  · obtain ⟨hle, hlt⟩ := natCast_div_bounds k hd
    have hsigned := Truncates.signed hle hlt true
    rw [Int.neg_tdiv, Int.cast_neg, neg_div]
    exact hsigned

/-- **So are the parts of a rational.** -/
theorem truncates_tdiv (q : Rat) : Truncates q (q.num.tdiv q.den) := by
  have h := truncates_div q.num q.den_pos
  rwa [q.num_div_den] at h

namespace Double

variable {x : Double}

/-- A finite float becomes the integer that is its whole part. -/
theorem exists_toInt? (h : x.isFinite = true) :
    ∃ n, x.toInt? = some n ∧ Truncates x.value n := by
  refine ⟨_, if_pos h, ?_⟩
  obtain ⟨hle, hlt⟩ := natCast_div_bounds x.ratio.1 x.ratio_snd_pos
  rw [ratio_eq] at hle hlt
  exact Truncates.signed hle hlt x.negative

/-! ## Clearing bits -/

theorem significand_lt (x : Double) : x.significand < 2 * fractionSize := by
  have hfraction : x.fraction < fractionSize := Nat.mod_lt _ (by decide)
  unfold significand
  split <;> omega

/-- A normal magnitude is a number of steps in its binade. -/
theorem magnitude_eq_steps (h : x.exponentField ≠ 0) :
    x.magnitude = x.significand + (x.exponentField - 1) * fractionSize ∧
      fractionSize ≤ x.significand := by
  have hsplit : x.magnitude = fractionSize * x.exponentField + x.fraction :=
    (Nat.div_add_mod _ _).symm
  obtain ⟨e, he⟩ := Nat.exists_eq_succ_of_ne_zero h
  rw [significand, if_neg h, hsplit, he, Nat.succ_sub_one, Nat.mul_succ, Nat.mul_comm]
  omega

/-- The bits below a unit are the remainder of a division by a power of two. -/
theorem ratio_of_scale_neg {k : Nat} (h : x.scale = -(k : Int)) (hk : 0 < k) :
    x.ratio = (x.significand, 2 ^ k) := by
  rw [ratio, if_neg (by omega), h, neg_neg, Int.toNat_natCast, Nat.pow_eq]

/-- A magnitude whose last bits are cleared is a whole number of units. -/
theorem size_clear {e k : Nat} (he : e + k = 1074) (hk : k ≤ 52) {q : Nat}
    (hlow : fractionSize ≤ q) (hhigh : q < 2 * fractionSize) :
    size (q + e * fractionSize - (q + e * fractionSize) % 2 ^ k) = (q / 2 ^ k : Nat) := by
  have hdvd : 2 ^ k ∣ fractionSize := pow_dvd_pow 2 hk
  have hmod : (q + e * fractionSize) % 2 ^ k = q % 2 ^ k := by
    obtain ⟨c, hc⟩ := hdvd
    rw [hc, Nat.mul_left_comm, Nat.add_mul_mod_self_left]
  have hsplit := Nat.div_add_mod q (2 ^ k)
  have hclear : q + e * fractionSize - q % 2 ^ k = 2 ^ k * (q / 2 ^ k) + e * fractionSize := by
    omega
  have hge : fractionSize ≤ 2 ^ k * (q / 2 ^ k) := by
    obtain ⟨c, hc⟩ := hdvd
    rw [hc] at hlow ⊢
    refine Nat.mul_le_mul_left _ ((Nat.le_div_iff_mul_le (by positivity)).mpr ?_)
    rwa [Nat.mul_comm]
  have hstep : (2 : Rat) ^ k * step e = 1 := by
    rw [step, show (e : Int) - 1074 = -(k : Int) by omega, zpow_neg, zpow_natCast]
    exact mul_inv_cancel₀ (by positivity)
  rw [hmod, hclear, size_steps (by omega) (.inr hge)]
  push_cast
  rw [mul_right_comm, hstep, one_mul]

/-- **Clearing the bits below a unit leaves the whole part.** -/
theorem exists_trunc_eq (x : Double) :
    ∃ k, x.trunc = ofMagnitude x.negative k ∧ k ≤ x.magnitude ∧
      size k = (x.ratio.1 / x.ratio.2 : Nat) := by
  have hself : ofMagnitude x.negative x.magnitude = x := by
    have hlt : x.magnitude < signBit := Nat.mod_lt _ (by decide)
    exact eq_of_magnitude_eq (negative_ofMagnitude _ hlt) (magnitude_ofMagnitude _ hlt)
  have hsig := x.significand_lt
  unfold trunc
  split
  · -- a whole number of units
    rename_i h
    refine ⟨x.magnitude, hself.symm, le_rfl, ?_⟩
    have hratio : x.ratio.2 = 1 := by
      rw [ratio, if_pos]
      unfold scale
      omega
    rw [← ratio_eq, hratio, Nat.div_one, Nat.cast_one, div_one]
  split
  · -- less than one unit
    rename_i _ h
    refine ⟨0, rfl, Nat.zero_le _, ?_⟩
    obtain ⟨k, hk⟩ : ∃ k : Nat, x.scale = -(k : Int) ∧ 53 ≤ k :=
      ⟨1075 - max 1 x.exponentField, by unfold scale; omega, by omega⟩
    have hpow : 2 * fractionSize ≤ 2 ^ k := Nat.pow_le_pow_right (n := 2) (by decide) hk.2
    rw [ratio_of_scale_neg hk.1 (by omega), Nat.div_eq_of_lt (by omega)]
    simp [size]
  · rename_i hhigh hlow
    have hfield : x.exponentField ≠ 0 := by omega
    obtain ⟨hsteps, hge⟩ := magnitude_eq_steps hfield
    obtain ⟨k, hk⟩ : ∃ k : Nat, 1075 - x.exponentField = k := ⟨_, rfl⟩
    have hscale : x.scale = -(k : Int) := by
      unfold scale
      omega
    refine ⟨_, rfl, Nat.sub_le _ _, ?_⟩
    rw [ratio_of_scale_neg hscale (by omega), hk, hsteps]
    exact size_clear (by omega) (by omega) hge hsig

/-- So a float that is truncated has the value of the integer that it becomes. -/
theorem toRat?_trunc (x : Double) : x.trunc.toRat? = x.toInt?.map (Int.cast : Int → Rat) := by
  by_cases h : x.isFinite = true
  · obtain ⟨k, htrunc, hle, hsize⟩ := exists_trunc_eq x
    have hbound : x.magnitude < infinityMagnitude := by simpa [isFinite] using h
    have hlt : k < signBit := (hle.trans_lt hbound).trans (by decide)
    have hfinite : x.trunc.isFinite = true := by
      rw [htrunc, isFinite, magnitude_ofMagnitude _ hlt, decide_eq_true_iff]
      exact hle.trans_lt hbound
    rw [toRat?_eq hfinite, toInt?, if_pos h, Option.map_some, htrunc, value,
      negative_ofMagnitude _ hlt, magnitude_ofMagnitude _ hlt, hsize, withSign]
    split <;> push_cast <;> rfl
  · have hmagnitude : infinityMagnitude ≤ x.magnitude := by simpa [isFinite] using h
    have hfield : 1075 ≤ x.exponentField := by
      unfold exponentField fractionSize
      unfold infinityMagnitude at hmagnitude
      omega
    rw [trunc, if_pos hfield, toRat?, toInt?, if_neg h, if_neg h, Option.map_none]

end Double

end RpnCalculator
