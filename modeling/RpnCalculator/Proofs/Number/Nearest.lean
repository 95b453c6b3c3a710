import Mathlib.Algebra.Order.Field.Power
import Mathlib.Data.Rat.Cast.Order
import Mathlib.Tactic.FieldSimp
import Mathlib.Tactic.Linarith
import Mathlib.Tactic.NormNum
import Mathlib.Tactic.Positivity
import Mathlib.Tactic.Ring
import RpnCalculator.Number.Rounding

/-!
# Rounding to the nearest

`Double.ofRatio` and `Double.ofDecimal` compute bits.  This file says which number the bits stand
for: the finite double nearest to the exact fraction, of two equally near ones the one with the
even significand (`RoundsTo`), and none if the fraction is at least `overflow`, which lies halfway
between the largest finite double and what would come next.

## The grid

Every finite magnitude is `q + e * 2 ^ 52` for some number `q < 2 ^ 53` of steps of size
`2 ^ (e - 1074)` (`exists_steps`), and the same expression stands for `q` steps when `q` is
`2 ^ 53` (`size_steps`).  A fraction between `2 ^ 52` and `2 ^ 53` steps is therefore compared
with two sorts of doubles: those that are a whole number of these steps, among which
`roundRatio` finds the nearest, and those below `2 ^ 52` steps, which are farther away than
`2 ^ 52` steps themselves (`size_cases`).
-/

namespace RpnCalculator

/-! ## The nearest integer -/

section Integer

variable {n d : Nat}

/-- A rounded quotient is off by less than one half, or by one half and even. -/
theorem roundRatio_spec (n : Nat) (hd : 0 < d) :
    |(roundRatio n d : Rat) - n / d| < 1 / 2 ∨
      |(roundRatio n d : Rat) - n / d| = 1 / 2 ∧ Even (roundRatio n d) := by
  have hpos : (0 : Rat) < d := by exact_mod_cast hd
  -- the quotient and what is left over, as a part of the divisor
  obtain ⟨t, ht⟩ : ∃ t : Rat, t = (n % d : Nat) / d := ⟨_, rfl⟩
  have hsplit : (n : Rat) / d = (n / d : Nat) + t := by
    have hn : (n : Rat) = d * (n / d : Nat) + (n % d : Nat) := by
      exact_mod_cast (Nat.div_add_mod n d).symm
    rw [ht, eq_comm, eq_div_iff hpos.ne', add_mul, div_mul_cancel₀ _ hpos.ne', mul_comm]
    exact hn.symm
  have hlow : 0 ≤ t := by rw [ht]; positivity
  have hhigh : t < 1 := by
    rw [ht, div_lt_one hpos]
    exact_mod_cast Nat.mod_lt n hd
  have hhalf : t * d = (n % d : Nat) := by rw [ht, div_mul_cancel₀ _ hpos.ne']
  rw [hsplit]
  unfold roundRatio
  dsimp only
  split
  · rename_i h
    have h' : (2 * (n % d : Nat) : Rat) < d := by exact_mod_cast h
    have : t < 1 / 2 := by nlinarith
    left
    rw [sub_add_cancel_left, abs_neg, abs_of_nonneg hlow]
    exact this
  split
  · rename_i h
    have h' : (d : Rat) < 2 * (n % d : Nat) := by exact_mod_cast h
    have : 1 / 2 < t := by nlinarith
    left
    push_cast
    rw [add_sub_add_left_eq_sub, abs_of_pos (by linarith)]
    linarith
  rename_i hle hge
  have htie : (2 * (n % d : Nat) : Rat) = d := by
    exact_mod_cast Nat.le_antisymm (by omega) (by omega)
  have hval : t = 1 / 2 := by nlinarith
  split
  · rename_i heven
    right
    rw [sub_add_cancel_left, abs_neg, abs_of_nonneg hlow, hval]
    exact ⟨rfl, Nat.even_iff.mpr heven⟩
  · rename_i hodd
    right
    push_cast
    rw [add_sub_add_left_eq_sub, hval]
    refine ⟨by norm_num, Nat.even_iff.mpr (by omega)⟩

/-- **No other integer is nearer**, and one that is as near leaves the even one. -/
theorem roundRatio_nearest (n : Nat) (hd : 0 < d) {j : Int} (hj : j ≠ roundRatio n d) :
    |(roundRatio n d : Rat) - n / d| < |(j : Rat) - n / d| ∨
      |(roundRatio n d : Rat) - n / d| = |(j : Rat) - n / d| ∧ Even (roundRatio n d) := by
  have hone : (1 : Rat) ≤ |(j : Rat) - roundRatio n d| := by
    have hdist : (1 : Int) ≤ |j - roundRatio n d| := Int.one_le_abs (sub_ne_zero.mpr hj)
    exact_mod_cast hdist
  have htriangle := abs_sub_le (j : Rat) (n / d) (roundRatio n d)
  rw [abs_sub_comm ((n : Rat) / d)] at htriangle
  rcases roundRatio_spec n hd with hlt | ⟨heq, heven⟩
  · left
    linarith
  · rcases (show (1 / 2 : Rat) ≤ |(j : Rat) - n / d| by linarith).lt_or_eq with hlt | htie
    · left
      linarith
    · exact .inr ⟨heq.trans htie, heven⟩

end Integer

namespace Double

/-! ## Steps -/

/-- The step between neighbours in the binade `e`, the first of which begins at zero. -/
def step (e : Nat) : Rat := 2 ^ ((e : Int) - 1074)

theorem step_pos (e : Nat) : 0 < step e := by
  unfold step
  positivity

theorem step_succ (e : Nat) : step (e + 1) = 2 * step e := by
  unfold step
  rw [show ((e + 1 : Nat) : Int) - 1074 = (e : Int) - 1074 + 1 by push_cast; ring,
    zpow_add_one₀ (by norm_num), mul_comm]

theorem step_add (e k : Nat) : step (e + k) = 2 ^ k * step e := by
  induction k with
  | zero => simp
  | succ k ih =>
    rw [← Nat.add_assoc, step_succ, ih]
    ring

theorem step_le {e e' : Nat} (h : e ≤ e') : step e ≤ step e' := by
  unfold step
  exact zpow_le_zpow_right₀ (by norm_num) (by omega)

/-- The number that a finite magnitude stands for. -/
def size (k : Nat) : Rat :=
  if k / fractionSize = 0 then (k % fractionSize : Nat) * step 0
  else (fractionSize + k % fractionSize : Nat) * step (k / fractionSize - 1)

/-- Every magnitude is a number of steps in its binade. -/
theorem exists_steps (k : Nat) : ∃ e q, k = q + e * fractionSize ∧ q < 2 * fractionSize ∧
    (e = 0 ∨ fractionSize ≤ q) ∧ size k = q * step e := by
  have hmod : k % fractionSize < fractionSize := Nat.mod_lt k (by decide)
  have hdiv := Nat.div_add_mod k fractionSize
  unfold size
  by_cases h : k / fractionSize = 0
  · refine ⟨0, k, by simp, ?_, .inl rfl, ?_⟩
    · rw [h] at hdiv
      omega
    · rw [if_pos h]
      congr 2
      rw [h] at hdiv
      omega
  · refine ⟨k / fractionSize - 1, fractionSize + k % fractionSize, ?_, by omega,
      .inr (by omega), if_neg h⟩
    obtain ⟨e, he⟩ := Nat.exists_eq_succ_of_ne_zero h
    rw [he] at hdiv ⊢
    simp only [Nat.succ_sub_one]
    rw [Nat.mul_succ, Nat.mul_comm] at hdiv
    omega

/-- The expression for a number of steps, which also holds of the step that leads to the next
binade. -/
theorem size_steps {e q : Nat} (hq : q ≤ 2 * fractionSize) (h : e = 0 ∨ fractionSize ≤ q) :
    size (q + e * fractionSize) = q * step e := by
  have hF : 0 < fractionSize := by decide
  unfold size
  rcases Nat.lt_or_ge q fractionSize with hlt | hge
  · -- a number below the first normal one
    obtain rfl : e = 0 := by omega
    rw [Nat.zero_mul, Nat.add_zero, if_pos (Nat.div_eq_of_lt hlt), Nat.mod_eq_of_lt hlt]
  rcases hq.lt_or_eq with hlt | rfl
  · have hfield : (q + e * fractionSize) / fractionSize = e + 1 := by
      rw [Nat.add_mul_div_right _ _ hF, Nat.div_eq_of_lt_le (k := 1) (by omega) (by omega)]
      omega
    have hfraction : (q + e * fractionSize) % fractionSize = q - fractionSize := by
      rw [Nat.add_mul_mod_self_right, Nat.mod_eq_sub_mod hge, Nat.mod_eq_of_lt (by omega)]
    rw [hfield, hfraction, if_neg (by omega), Nat.add_sub_cancel' hge, Nat.add_sub_cancel]
  · have hfield : (2 * fractionSize + e * fractionSize) / fractionSize = e + 2 := by
      rw [← Nat.add_mul, Nat.mul_div_cancel _ hF, Nat.add_comm]
    have hfraction : (2 * fractionSize + e * fractionSize) % fractionSize = 0 := by
      rw [← Nat.add_mul, Nat.mul_mod_left]
    rw [hfield, hfraction, if_neg (by omega), Nat.add_zero,
      show e + 2 - 1 = e + 1 by omega, step_succ]
    push_cast
    ring

/-- A larger magnitude stands for a larger number. -/
theorem size_strictMono : StrictMono size := by
  refine strictMono_nat_of_lt_succ fun k => ?_
  obtain ⟨e, q, hk, hq, he, hsize⟩ := exists_steps k
  have hsucc : size (k + 1) = (q + 1 : Nat) * step e := by
    rw [show k + 1 = q + 1 + e * fractionSize by omega]
    exact size_steps (by omega) (by omega)
  rw [hsize, hsucc]
  exact mul_lt_mul_of_pos_right (by exact_mod_cast Nat.lt_succ_self q) (step_pos e)

/-- Seen from the binade `e`, a double is a whole number of steps or below the binade. -/
theorem size_cases (k e : Nat) :
    (∃ j : Nat, size k = j * step e) ∨ 0 < e ∧ size k < fractionSize * step e := by
  obtain ⟨e', q, -, hq, -, hsize⟩ := exists_steps k
  rcases Nat.lt_or_ge e' e with hlt | hle
  · right
    refine ⟨by omega, ?_⟩
    have hle : step (e' + 1) ≤ step e := step_le hlt
    have hq' : (q : Rat) < 2 * fractionSize := by exact_mod_cast hq
    calc size k = q * step e' := hsize
      _ < 2 * fractionSize * step e' := mul_lt_mul_of_pos_right hq' (step_pos e')
      _ = fractionSize * step (e' + 1) := by rw [step_succ]; ring
      _ ≤ fractionSize * step e := by gcongr
  · left
    obtain ⟨i, rfl⟩ := Nat.exists_eq_add_of_le hle
    refine ⟨q * 2 ^ i, ?_⟩
    rw [hsize, step_add]
    push_cast
    ring

theorem size_nonneg (k : Nat) : 0 ≤ size k := by
  obtain ⟨e, q, -, -, -, hsize⟩ := exists_steps k
  have := step_pos e
  rw [hsize]
  positivity

/-! ## What it is to be rounded -/

/-- The number that a finite double stands for. -/
def value (x : Double) : Rat := if x.negative then -size x.magnitude else size x.magnitude

/-- The fractions that are at least this large have no nearest double. -/
def overflow : Rat := (2 ^ 54 - 1) * 2 ^ 970

theorem one_le_fractionSize : (1 : Rat) ≤ fractionSize := by norm_num [fractionSize]

/-- The overflow lies half a step below the end of the last binade. -/
theorem overflow_eq : overflow = (2 * fractionSize - 1 / 2) * step 2045 := by
  have hpow : (2 : Rat) ^ (970 : Int) = 2 ^ 970 := zpow_natCast 2 970
  rw [step, overflow, fractionSize, show ((2045 : Nat) : Int) - 1074 = 970 + 1 by norm_num,
    zpow_add_one₀ two_ne_zero, hpow]
  generalize (2 : Rat) ^ 970 = p
  norm_num
  ring

/-- A double is the nearest to a number: it is finite, no finite double is nearer, and if one of
another value is as near then the significand is even. -/
structure RoundsTo (r : Rat) (x : Double) : Prop where
  finite : x.isFinite = true
  nearest : ∀ y : Double, y.isFinite = true → |x.value - r| ≤ |y.value - r|
  even : ∀ y : Double, y.isFinite = true → y.value ≠ x.value → |y.value - r| = |x.value - r| →
    Even x.significand

theorem size_magnitude (x : Double) : size x.magnitude = x.significand * 2 ^ x.scale := by
  unfold size significand scale exponentField fraction
  split
  · rename_i h
    rw [h, step]
    rfl
  · rename_i h
    rw [step]
    congr 2
    omega

theorem ratio_eq (x : Double) : (x.ratio.1 : Rat) / x.ratio.2 = size x.magnitude := by
  rw [size_magnitude]
  unfold ratio
  split
  · rename_i h
    obtain ⟨k, hk⟩ := Int.eq_ofNat_of_zero_le h
    rw [hk]
    simp
  · rename_i h
    obtain ⟨k, hk⟩ := Int.eq_ofNat_of_zero_le (show 0 ≤ -x.scale by omega)
    rw [hk, show x.scale = -(k : Int) by omega, zpow_neg, zpow_natCast, Int.toNat_natCast,
      Nat.pow_eq]
    push_cast
    rw [div_eq_mul_inv]

/-- The value is the one that the double has in exact computation. -/
theorem toRat?_eq {x : Double} (h : x.isFinite = true) : x.toRat? = some x.value := by
  rw [toRat?, if_pos h, Rat.mkRat_eq_div, Option.some.injEq, value, ← ratio_eq]
  unfold withSign
  split
  · push_cast
    rw [neg_div]
  · rfl

/-- A significand and a magnitude are even together. -/
theorem even_significand (x : Double) : Even x.significand ↔ Even x.magnitude := by
  have hF : Even fractionSize := by decide
  have hmagnitude : x.magnitude = fractionSize * x.exponentField + x.fraction :=
    (Nat.div_add_mod _ _).symm
  rw [hmagnitude, Nat.even_add]
  have hleft : Even (fractionSize * x.exponentField) := hF.mul_right _
  unfold significand
  split
  · simp [hleft]
  · simp [Nat.even_add, hF, hleft]

/-! ## The binade of a fraction -/

section Ratio

variable {n d : Nat}

/-- A power of two compared with a fraction, in natural numbers. -/
theorem zpow_le_ratio_iff (p : Int) (hd : 0 < d) :
    (2 : Rat) ^ p ≤ n / d ↔
      (if 0 ≤ p then decide (d * Nat.pow 2 p.toNat ≤ n)
        else decide (d ≤ n * Nat.pow 2 (-p).toNat)) = true := by
  have hpos : (0 : Rat) < d := by exact_mod_cast hd
  rw [le_div_iff₀ hpos]
  split
  · rename_i h
    obtain ⟨k, rfl⟩ := Int.eq_ofNat_of_zero_le h
    rw [decide_eq_true_iff, Int.toNat_natCast, zpow_natCast, mul_comm]
    exact_mod_cast Iff.rfl
  · rename_i h
    obtain ⟨k, hk⟩ := Int.eq_ofNat_of_zero_le (show 0 ≤ -p by omega)
    rw [decide_eq_true_iff, hk, Int.toNat_natCast, show p = -(k : Int) by omega, zpow_neg,
      zpow_natCast, inv_mul_le_iff₀ (by positivity), mul_comm]
    exact_mod_cast Iff.rfl

/-- The exponent is the largest that the fraction reaches. -/
theorem binaryExponent_spec (hn : n ≠ 0) (hd : 0 < d) :
    (2 : Rat) ^ binaryExponent n d ≤ n / d ∧ (n : Rat) / d < 2 ^ (binaryExponent n d + 1) := by
  have hpos : (0 : Rat) < d := by exact_mod_cast hd
  have hn₁ : (2 : Rat) ^ (n.log2 : Int) ≤ n := by exact_mod_cast Nat.log2_self_le hn
  have hn₂ : (n : Rat) < 2 ^ ((n.log2 : Int) + 1) := by exact_mod_cast Nat.lt_log2_self
  have hd₁ : (2 : Rat) ^ (d.log2 : Int) ≤ d := by exact_mod_cast Nat.log2_self_le hd.ne'
  have hd₂ : (d : Rat) < 2 ^ ((d.log2 : Int) + 1) := by exact_mod_cast Nat.lt_log2_self
  have hlow : (2 : Rat) ^ ((n.log2 : Int) - d.log2 - 1) ≤ n / d := by
    rw [le_div_iff₀ hpos]
    calc (2 : Rat) ^ ((n.log2 : Int) - d.log2 - 1) * d
        ≤ 2 ^ ((n.log2 : Int) - d.log2 - 1) * 2 ^ ((d.log2 : Int) + 1) := by gcongr
      _ = 2 ^ (n.log2 : Int) := by
        rw [← zpow_add₀ two_ne_zero]
        congr 1
        ring
      _ ≤ n := hn₁
  have hhigh : (n : Rat) / d < 2 ^ ((n.log2 : Int) - d.log2 + 1) := by
    rw [div_lt_iff₀ hpos]
    calc (n : Rat) < 2 ^ ((n.log2 : Int) + 1) := hn₂
      _ = 2 ^ ((n.log2 : Int) - d.log2 + 1) * 2 ^ (d.log2 : Int) := by
        rw [← zpow_add₀ two_ne_zero]
        congr 1
        ring
      _ ≤ 2 ^ ((n.log2 : Int) - d.log2 + 1) * d := by gcongr
  unfold binaryExponent
  dsimp only
  by_cases h : (2 : Rat) ^ ((n.log2 : Int) - d.log2) ≤ n / d
  · rw [if_pos ((zpow_le_ratio_iff _ hd).mp h)]
    exact ⟨h, hhigh⟩
  · rw [if_neg fun h' => h ((zpow_le_ratio_iff _ hd).mpr h')]
    refine ⟨hlow, ?_⟩
    rw [sub_add_cancel]
    exact not_le.mp h

/-- The number of steps that a fraction is rounded to, in its binade. -/
structure Rounded (r : Rat) (e q : Nat) : Prop where
  lt : r < 2 * fractionSize * step e
  le : e = 0 ∨ fractionSize * step e ≤ r
  near : |q * step e - r| ≤ step e / 2
  nearest : ∀ j : Int, j ≠ q → |q * step e - r| < |j * step e - r| ∨
    |q * step e - r| = |j * step e - r| ∧ Even q

/-- A quotient that measures a fraction in steps is rounded to the nearest number of them. -/
theorem Rounded.of_quotient {r : Rat} {e n d : Nat} (hd : 0 < d) (hr : r = n / d * step e)
    (hlt : r < 2 * fractionSize * step e) (hle : e = 0 ∨ fractionSize * step e ≤ r) :
    Rounded r e (roundRatio n d) := by
  have hstep := step_pos e
  have hdist : ∀ x : Rat, |x * step e - r| = |x - n / d| * step e := fun x => by
    rw [hr, ← sub_mul, abs_mul, abs_of_pos hstep]
  refine ⟨hlt, hle, ?_, fun j hj => ?_⟩
  · rw [hdist, show step e / 2 = 1 / 2 * step e by ring]
    refine mul_le_mul_of_nonneg_right ?_ hstep.le
    rcases roundRatio_spec n hd with h | ⟨h, -⟩
    · exact h.le
    · exact h.le
  · rw [hdist, hdist]
    rcases roundRatio_nearest n hd hj with h | ⟨h, heven⟩
    · exact .inl (mul_lt_mul_of_pos_right h hstep)
    · exact .inr ⟨by rw [h], heven⟩

/-- What `ofRatio` computes. -/
theorem exists_rounded (negative : Bool) (hn : n ≠ 0) (hd : 0 < d) :
    ∃ e q, Rounded (n / d) e q ∧
      ofRatio negative n d =
        ofMagnitude negative (min (q + e * fractionSize) infinityMagnitude) := by
  obtain ⟨hlow, hhigh⟩ := binaryExponent_spec hn hd
  have hF : (fractionSize : Rat) = 2 ^ (52 : Int) := by norm_num [fractionSize]
  obtain ⟨e, he⟩ : ∃ e, e = (binaryExponent n d + 1022).toNat := ⟨_, rfl⟩
  have hlt : (n : Rat) / d < 2 * fractionSize * step e := by
    refine hhigh.trans_le ?_
    rw [hF, step, mul_assoc, ← zpow_add₀ two_ne_zero, ← zpow_one_add₀ two_ne_zero]
    exact zpow_le_zpow_right₀ (by norm_num) (by omega)
  have hle : e = 0 ∨ fractionSize * step e ≤ (n : Rat) / d := by
    by_cases h0 : e = 0
    · exact .inl h0
    · refine .inr (le_trans ?_ hlow)
      rw [hF, step, ← zpow_add₀ two_ne_zero]
      exact zpow_le_zpow_right₀ (by norm_num) (by omega)
  refine ⟨e, if 1074 ≤ e then roundRatio n (d * Nat.pow 2 (e - 1074))
    else roundRatio (n * Nat.pow 2 (1074 - e)) d, ?_, ?_⟩
  · split
    · rename_i h
      obtain ⟨k, rfl⟩ := Nat.exists_eq_add_of_le h
      refine .of_quotient (Nat.mul_pos hd (Nat.pow_pos (by decide))) ?_ hlt hle
      rw [step, Nat.pow_eq, Nat.add_sub_cancel_left, show ((1074 + k : Nat) : Int) - 1074 = k by
        push_cast; ring, zpow_natCast]
      push_cast
      field_simp
    · rename_i h
      obtain ⟨k, hk⟩ := Nat.exists_eq_add_of_le (Nat.le_of_lt (Nat.not_le.mp h))
      refine .of_quotient hd ?_ hlt hle
      rw [step, Nat.pow_eq, show 1074 - e = k by omega, show (e : Int) - 1074 = -(k : Int) by omega,
        zpow_neg, zpow_natCast]
      push_cast
      field_simp
  · rw [ofRatio, if_neg hn, he]

end Ratio

namespace Rounded

variable {r : Rat} {e q : Nat}

/-- The number of steps does not leave the binade, but it can reach the next one. -/
theorem le_two_mul (h : Rounded r e q) : q ≤ 2 * fractionSize := by
  by_contra hq
  have hstep := step_pos e
  have hq' : (2 * fractionSize + 1 : Rat) ≤ q := by
    exact_mod_cast (show 2 * fractionSize + 1 ≤ q by omega)
  have hnear := (abs_le.mp h.near).2
  have hlt := h.lt
  nlinarith

theorem ge (h : Rounded r e q) : e = 0 ∨ fractionSize ≤ q := by
  refine h.le.imp_right fun hle => ?_
  by_contra hq
  have hstep := step_pos e
  have hq' : (q + 1 : Rat) ≤ fractionSize := by exact_mod_cast (show q + 1 ≤ fractionSize by omega)
  have hnear := (abs_le.mp h.near).1
  nlinarith

theorem size_eq (h : Rounded r e q) : size (q + e * fractionSize) = q * step e :=
  size_steps h.le_two_mul h.ge

/-- **No double is nearer.** -/
theorem nearest_size (h : Rounded r e q) {k : Nat} (hk : size k ≠ q * step e) :
    |q * step e - r| < |size k - r| ∨ |q * step e - r| = |size k - r| ∧ Even q := by
  have hstep := step_pos e
  rcases size_cases k e with ⟨j, hj⟩ | ⟨he, hbelow⟩
  · have hne : (j : Int) ≠ q := by
      intro hjq
      refine hk ?_
      rw [hj, show j = q by exact_mod_cast hjq]
    rw [hj]
    exact_mod_cast h.nearest j hne
  · -- the lower end of the binade lies between
    left
    have hle : fractionSize * step e ≤ r := h.le.resolve_left he.ne'
    have hend : |q * step e - r| ≤ |fractionSize * step e - r| := by
      by_cases hq : (fractionSize : Int) = q
      · rw [show fractionSize = q by exact_mod_cast hq]
      · rcases h.nearest fractionSize hq with hlt | ⟨heq, -⟩
        · exact_mod_cast hlt.le
        · exact_mod_cast heq.le
    refine hend.trans_lt ?_
    rw [abs_sub_comm, abs_of_nonneg (sub_nonneg.mpr hle), abs_sub_comm,
      abs_of_pos (sub_pos.mpr (hbelow.trans_le hle))]
    exact sub_lt_sub_left hbelow r

/-- Nor is the negative of one. -/
theorem nearest_neg_size (h : Rounded r e q) (hr : 0 ≤ r) {k : Nat}
    (hk : -size k ≠ q * step e) :
    |q * step e - r| < |-size k - r| ∨ |q * step e - r| = |-size k - r| ∧ Even q := by
  rcases hr.eq_or_lt with rfl | hr
  · -- the nearest to zero is zero
    left
    have hstep := step_pos e
    have hq : q = 0 := by
      by_contra hq
      have hq' : (1 : Rat) ≤ q := by exact_mod_cast Nat.one_le_iff_ne_zero.mpr hq
      have hnear := (abs_le.mp h.near).2
      nlinarith
    rw [hq, Nat.cast_zero, zero_mul] at hk ⊢
    rw [sub_zero, sub_zero, abs_zero]
    exact abs_pos.mpr hk
  have hsize := size_nonneg k
  rcases hsize.eq_or_lt with hzero | hpos
  · rw [← hzero, neg_zero] at hk ⊢
    rw [hzero] at hk ⊢
    exact h.nearest_size hk
  · left
    have hcloser : |size k - r| < |-size k - r| := by
      rw [abs_sub_comm (-size k), abs_of_pos (show 0 < r - -size k by linarith), abs_lt]
      constructor <;> linarith
    by_cases heq : size k = q * step e
    · rwa [← heq]
    · rcases h.nearest_size heq with hlt | ⟨htie, -⟩
      · exact hlt.trans hcloser
      · rwa [htie]

/-- Before the last binade there is no overflow. -/
theorem lt_overflow_of_lt (h : Rounded r e q) (he : e < 2045) : r < overflow := by
  have hstep : 2 * step e ≤ step 2045 := by
    rw [← step_succ]
    exact step_le he
  have hpos := step_pos 2045
  have hF := one_le_fractionSize
  calc r < 2 * fractionSize * step e := h.lt
    _ = fractionSize * (2 * step e) := by ring
    _ ≤ fractionSize * step 2045 := mul_le_mul_of_nonneg_left hstep (Nat.cast_nonneg _)
    _ ≤ (2 * fractionSize - 1 / 2) * step 2045 :=
      mul_le_mul_of_nonneg_right (by linarith) hpos.le
    _ = overflow := overflow_eq.symm

/-- Behind it there is nothing else. -/
theorem overflow_le_of_lt (h : Rounded r e q) (he : 2045 < e) : overflow ≤ r := by
  have hstep : 2 * step 2045 ≤ step e := by
    rw [← step_succ]
    exact step_le he
  have hpos := step_pos 2045
  calc overflow = (2 * fractionSize - 1 / 2) * step 2045 := overflow_eq
    _ ≤ 2 * fractionSize * step 2045 := mul_le_mul_of_nonneg_right (by linarith) hpos.le
    _ = fractionSize * (2 * step 2045) := by ring
    _ ≤ fractionSize * step e := mul_le_mul_of_nonneg_left hstep (Nat.cast_nonneg _)
    _ ≤ r := h.le.resolve_left (by omega)

/-- A fraction halfway to the end of the last binade is rounded to the end, because that is an
even number of steps. -/
theorem eq_two_mul_of_eq_overflow (h : Rounded overflow 2045 q) : q = 2 * fractionSize := by
  have hpos := step_pos 2045
  have hnear := (abs_le.mp h.near).1
  rw [overflow_eq] at hnear
  by_contra hne
  have hq : (2 * fractionSize : Rat) - 1 ≤ q := by nlinarith
  have hq' : q + 1 = 2 * fractionSize := by
    have hge : 2 * fractionSize ≤ q + 1 := by
      have : (2 * fractionSize : Rat) ≤ q + 1 := by linarith
      exact_mod_cast this
    have := h.le_two_mul
    omega
  have hcast : (q : Rat) = 2 * fractionSize - 1 := by
    have : (q + 1 : Rat) = 2 * fractionSize := by exact_mod_cast hq'
    linarith
  -- the end and the number before it are equally near
  have hdist : |q * step 2045 - overflow| =
      |((2 * fractionSize : Nat) : Int) * step 2045 - overflow| := by
    rw [overflow_eq, hcast]
    push_cast
    rw [← sub_mul, ← sub_mul, abs_mul, abs_mul]
    norm_num
  rcases h.nearest (2 * fractionSize : Nat) (by omega) with hcloser | ⟨-, heven⟩
  · exact absurd hdist hcloser.ne
  · rw [Nat.even_iff] at heven
    omega

/-- In the last binade, the end is what is rounded to from the overflow on. -/
theorem lt_overflow_iff (h : Rounded r 2045 q) : r < overflow ↔ q < 2 * fractionSize := by
  have hpos := step_pos 2045
  have hnear := abs_le.mp h.near
  constructor
  · intro hr
    refine lt_of_le_of_ne h.le_two_mul fun hq => ?_
    have hbound := hnear.2
    rw [hq] at hbound
    push_cast at hbound
    rw [overflow_eq] at hr
    linarith
  · intro hq
    have hq' : (q : Rat) + 1 ≤ 2 * fractionSize := by exact_mod_cast hq
    refine lt_of_le_of_ne ?_ fun hr => ?_
    · calc r ≤ (q + 1 / 2) * step 2045 := by linarith [hnear.1]
        _ ≤ (2 * fractionSize - 1 / 2) * step 2045 :=
          mul_le_mul_of_nonneg_right (by linarith) hpos.le
        _ = overflow := overflow_eq.symm
    · subst hr
      exact hq.ne h.eq_two_mul_of_eq_overflow

/-- **The number is finite exactly below the overflow.** -/
theorem lt_infinity_iff (h : Rounded r e q) :
    q + e * fractionSize < infinityMagnitude ↔ r < overflow := by
  have hinf : infinityMagnitude = 2047 * fractionSize := by decide
  have hpos : 0 < fractionSize := by decide
  have hmax := h.le_two_mul
  rw [hinf]
  rcases Nat.lt_trichotomy e 2045 with hbelow | rfl | habove
  · have he : e * fractionSize ≤ 2044 * fractionSize := Nat.mul_le_mul_right _ (by omega)
    exact iff_of_true (by omega) (h.lt_overflow_of_lt hbelow)
  · rw [h.lt_overflow_iff]
    omega
  · have he : 2046 * fractionSize ≤ e * fractionSize := Nat.mul_le_mul_right _ habove
    have hmin := h.ge
    exact iff_of_false (by omega) (not_lt.mpr (h.overflow_le_of_lt habove))

end Rounded

/-! ## Fractions -/

theorem negative_ofMagnitude (negative : Bool) {k : Nat} (h : k < signBit) :
    (ofMagnitude negative k).negative = negative := by
  unfold signBit at h
  cases negative
  · simp only [ofMagnitude, Double.negative, signBit, Bool.false_eq_true, if_false,
      UInt64.toNat_ofNat', decide_eq_false_iff_not]
    omega
  · simp only [ofMagnitude, Double.negative, signBit, if_true, UInt64.toNat_ofNat',
      decide_eq_true_eq]
    omega

/-- A number with a sign in front. -/
def signed (negative : Bool) (r : Rat) : Rat := if negative then -r else r

/-- What it is to be the nearest to a number with a sign. -/
theorem roundsTo_signed {negative : Bool} {r : Rat} {e q : Nat} (h : Rounded r e q) (hr : 0 ≤ r)
    (hfinite : q + e * fractionSize < infinityMagnitude) :
    RoundsTo (signed negative r) (ofMagnitude negative (q + e * fractionSize)) := by
  have hbelow : q + e * fractionSize < signBit := hfinite.trans (by decide)
  obtain ⟨x, hx⟩ : ∃ x, x = ofMagnitude negative (q + e * fractionSize) := ⟨_, rfl⟩
  have hmagnitude : x.magnitude = q + e * fractionSize := by
    rw [hx, magnitude_ofMagnitude negative hbelow]
  have hnegative : x.negative = negative := by rw [hx, negative_ofMagnitude negative hbelow]
  rw [← hx]
  -- a distance does not change when both numbers change their signs
  have hdist : ∀ v : Rat, |v - signed negative r| = |signed negative v - r| := by
    intro v
    cases negative
    · rfl
    · rw [signed, signed, if_pos rfl, if_pos rfl, abs_sub_comm]
      congr 1
      ring
  have hvalue : signed negative x.value = q * step e := by
    rw [value, hnegative, hmagnitude, h.size_eq]
    cases negative <;> simp [signed]
  have hothers : ∀ y : Double, y.value ≠ x.value →
      |q * step e - r| < |signed negative y.value - r| ∨
        |q * step e - r| = |signed negative y.value - r| ∧ Even q := by
    intro y hy
    have hne : signed negative y.value ≠ q * step e := by
      rw [← hvalue]
      cases negative
      · exact hy
      · exact fun hneg => hy (neg_inj.mp hneg)
    rcases (show signed negative y.value = size y.magnitude ∨
        signed negative y.value = -size y.magnitude by
      unfold signed value
      cases negative <;> cases y.negative <;> simp) with hsize | hsize
    · rw [hsize] at hne ⊢
      exact h.nearest_size hne
    · rw [hsize] at hne ⊢
      exact h.nearest_neg_size hr hne
  refine ⟨by simp [isFinite, hmagnitude, hfinite], fun y _ => ?_, fun y _ hy htie => ?_⟩
  · rw [hdist, hdist, hvalue]
    by_cases hy : y.value = x.value
    · rw [hy, hvalue]
    · rcases hothers y hy with hlt | ⟨heq, -⟩
      · exact hlt.le
      · exact heq.le
  · rw [hdist, hdist, hvalue] at htie
    rcases hothers y hy with hlt | ⟨-, heven⟩
    · exact absurd htie hlt.ne'
    · rw [even_significand, hmagnitude]
      have hF : Even fractionSize := by decide
      exact heven.add (hF.mul_left e)

/-- **A fraction is rounded to the nearest double**, with the sign that it is given, and to an
infinite one if it is too large. -/
theorem ofRatio_spec (negative : Bool) (n : Nat) {d : Nat} (hd : 0 < d) :
    (ofRatio negative n d).negative = negative ∧
      ((ofRatio negative n d).isFinite = true ↔ (n : Rat) / d < overflow) ∧
      ((ofRatio negative n d).isFinite = true →
        RoundsTo (signed negative (n / d)) (ofRatio negative n d)) := by
  obtain ⟨e, q, hround, heq⟩ : ∃ e q, Rounded (n / d) e q ∧ ofRatio negative n d =
      ofMagnitude negative (min (q + e * fractionSize) infinityMagnitude) := by
    by_cases hn : n = 0
    · refine ⟨0, roundRatio 0 1, .of_quotient (by decide) ?_ ?_ (.inl rfl), ?_⟩
      · simp [hn]
      · have := step_pos 0
        simp [hn, fractionSize, this]
      · rw [ofRatio, if_pos hn]
        rfl
    · exact exists_rounded negative hn hd
  have hle : min (q + e * fractionSize) infinityMagnitude < signBit :=
    (Nat.min_le_right ..).trans_lt (by decide)
  have hfinite : (ofRatio negative n d).isFinite = true ↔
      q + e * fractionSize < infinityMagnitude := by
    rw [heq, isFinite, magnitude_ofMagnitude negative hle, decide_eq_true_iff]
    omega
  have hpos : (0 : Rat) ≤ n / d := by positivity
  refine ⟨by rw [heq, negative_ofMagnitude negative hle], hfinite.trans hround.lt_infinity_iff, ?_⟩
  intro h
  rw [hfinite] at h
  rw [heq, Nat.min_eq_left h.le]
  exact roundsTo_signed hround hpos h

/-! ## Decimals -/

/-- A number below half a step is rounded to no step. -/
theorem Rounded.of_lt {r : Rat} (hr : 0 ≤ r) (hlt : r < step 0 / 2) : Rounded r 0 0 := by
  have hstep := step_pos 0
  have hF := one_le_fractionSize
  have hdist : |((0 : Nat) : Rat) * step 0 - r| = r := by
    rw [Nat.cast_zero, zero_mul, zero_sub, abs_neg, abs_of_nonneg hr]
  refine ⟨by nlinarith, .inl rfl, by rw [hdist]; exact hlt.le, fun j hj => .inl ?_⟩
  rw [hdist, lt_abs]
  rcases Int.lt_or_lt_of_ne hj with hneg | hpos
  · right
    have hj' : (j : Rat) ≤ -1 := by exact_mod_cast (show j ≤ -1 by omega)
    nlinarith
  · left
    have hj' : (1 : Rat) ≤ j := by exact_mod_cast (show 1 ≤ j by omega)
    nlinarith

theorem overflow_le : overflow ≤ 10 ^ 400 :=
  calc overflow ≤ 2 ^ 54 * 2 ^ 970 := mul_le_mul_of_nonneg_right (by norm_num) (by positivity)
    _ = (2 ^ 64) ^ 16 := by rw [← pow_add, ← pow_mul]
    _ ≤ (10 ^ 25) ^ 16 := pow_le_pow_left₀ (by positivity) (by norm_num) 16
    _ = 10 ^ 400 := by rw [← pow_mul]

theorem ten_zpow_lt : (10 : Rat) ^ (-401 : Int) < step 0 / 2 := by
  have hnat : 2 ^ 1075 < 10 ^ 401 := by decide +kernel
  have hpow : (2 : Rat) ^ 1075 < 10 ^ 401 := by exact_mod_cast hnat
  have hhalf : step 0 / 2 = (2 ^ 1075)⁻¹ := by
    rw [step, show ((0 : Nat) : Int) - 1074 = -(1074 : Nat) by norm_num, zpow_neg, zpow_natCast,
      pow_succ (2 : Rat) 1074, mul_inv, div_eq_mul_inv]
  rw [hhalf, show (-401 : Int) = -(401 : Nat) by norm_num, zpow_neg, zpow_natCast]
  exact inv_strictAnti₀ (by positivity) hpow

/-- A decimal with a large exponent is too large, if it is not zero. -/
theorem overflow_le_decimal {m : Nat} {e : Int} (hm : m ≠ 0) (he : 400 < e) :
    overflow ≤ m * 10 ^ e := by
  have hone : (1 : Rat) ≤ m := by exact_mod_cast Nat.one_le_iff_ne_zero.mpr hm
  calc overflow ≤ 10 ^ 400 := overflow_le
    _ = 10 ^ (400 : Int) := (zpow_natCast 10 400).symm
    _ ≤ 10 ^ e := zpow_le_zpow_right₀ (by norm_num) he.le
    _ ≤ m * 10 ^ e := le_mul_of_one_le_left (by positivity) hone

/-- A decimal whose first digit has a small exponent is below half a step. -/
theorem decimal_lt_half_step {m digits : Nat} {e : Int} (hm : m < 10 ^ digits)
    (he : (digits : Int) + e < -400) : (m : Rat) * 10 ^ e < step 0 / 2 := by
  have hm' : (m : Rat) < 10 ^ (digits : Int) := by exact_mod_cast hm
  calc (m : Rat) * 10 ^ e < 10 ^ (digits : Int) * 10 ^ e := by gcongr
    _ = 10 ^ ((digits : Int) + e) := (zpow_add₀ (by norm_num) _ _).symm
    _ ≤ 10 ^ (-401 : Int) := zpow_le_zpow_right₀ (by norm_num) (by omega)
    _ < step 0 / 2 := ten_zpow_lt

/-- **A decimal is rounded to the nearest double**, with the sign that it is given, and to an
infinite one if it is too large. -/
theorem ofDecimal_spec (negative : Bool) {m digits : Nat} (e : Int) (hm : m < 10 ^ digits) :
    (ofDecimal negative m digits e).negative = negative ∧
      ((ofDecimal negative m digits e).isFinite = true ↔ (m : Rat) * 10 ^ e < overflow) ∧
      ((ofDecimal negative m digits e).isFinite = true →
        RoundsTo (signed negative (m * 10 ^ e)) (ofDecimal negative m digits e)) := by
  unfold ofDecimal
  by_cases h0 : m = 0
  · rw [if_pos h0]
    have hzero := ofRatio_spec negative 0 Nat.one_pos
    simpa [ofRatio, h0] using hzero
  rw [if_neg h0]
  by_cases hlarge : 400 < e
  · rw [if_pos hlarge]
    have hinf : infinityMagnitude < signBit := by decide
    have hnot : ¬(ofMagnitude negative infinityMagnitude).isFinite = true := by
      rw [isFinite, magnitude_ofMagnitude negative hinf]
      decide
    have hoverflow : ¬(m : Rat) * 10 ^ e < overflow := not_lt.mpr (overflow_le_decimal h0 hlarge)
    exact ⟨negative_ofMagnitude negative hinf, iff_of_false hnot hoverflow, fun h => absurd h hnot⟩
  rw [if_neg hlarge]
  by_cases hsmall : (digits : Int) + e < -400
  · rw [if_pos hsmall]
    have hround : Rounded ((m : Rat) * 10 ^ e) 0 0 :=
      .of_lt (by positivity) (decimal_lt_half_step hm hsmall)
    have hfinite : 0 + 0 * fractionSize < infinityMagnitude := by decide
    have hrounds : RoundsTo (signed negative (m * 10 ^ e)) (ofMagnitude negative 0) :=
      roundsTo_signed hround (by positivity) hfinite
    refine ⟨negative_ofMagnitude negative (by decide), ?_, fun _ => hrounds⟩
    exact iff_of_true hrounds.finite (hround.lt_infinity_iff.mp hfinite)
  rw [if_neg hsmall]
  split
  · rename_i h
    obtain ⟨k, rfl⟩ := Int.eq_ofNat_of_zero_le h
    have hspec := ofRatio_spec negative (m * Nat.pow 10 k) Nat.one_pos
    rw [Nat.pow_eq] at hspec
    push_cast at hspec
    rw [div_one] at hspec
    rw [Int.toNat_natCast, Nat.pow_eq, zpow_natCast]
    exact hspec
  · rename_i h
    obtain ⟨k, hk⟩ := Int.eq_ofNat_of_zero_le (show 0 ≤ -e by omega)
    have hspec := ofRatio_spec negative m (show 0 < Nat.pow 10 k from Nat.pow_pos (by decide))
    rw [Nat.pow_eq] at hspec
    push_cast at hspec
    rw [hk, Int.toNat_natCast, Nat.pow_eq, show e = -(k : Int) by omega, zpow_neg, zpow_natCast,
      ← div_eq_mul_inv]
    exact hspec

/-! ## There is only one -/

/-- A double is its sign and its magnitude. -/
theorem eq_of_magnitude_eq {x y : Double} (hnegative : x.negative = y.negative)
    (hmagnitude : x.magnitude = y.magnitude) : x = y := by
  have hx := x.bits.toNat_lt
  have hy := y.bits.toNat_lt
  obtain ⟨a⟩ := x
  obtain ⟨b⟩ := y
  congr 1
  refine UInt64.toNat_inj.mp ?_
  simp only [Double.negative, decide_eq_decide] at hnegative
  simp only [magnitude, signBit] at *
  omega

/-- The distance of a double with the sign `negative` to a number. -/
theorem abs_value_sub {x : Double} {negative : Bool} (hx : x.negative = negative) (r : Rat) :
    |x.value - r| = |size x.magnitude - signed negative r| := by
  subst hx
  unfold value signed
  split
  · rw [← neg_add', ← sub_neg_eq_add, abs_neg]
  · rfl

/-- **There is only one nearest double with a given sign.** -/
theorem RoundsTo.unique {r : Rat} {x y : Double} (hx : RoundsTo r x) (hy : RoundsTo r y)
    (hnegative : x.negative = y.negative) : x = y := by
  by_contra hne
  wlog hlt : x.magnitude < y.magnitude generalizing x y
  · rcases (Nat.not_lt.mp hlt).lt_or_eq with hgt | heq
    · exact this hy hx hnegative.symm (Ne.symm hne) hgt
    · exact hne (eq_of_magnitude_eq hnegative heq.symm)
  have hsize : size x.magnitude < size y.magnitude := size_strictMono hlt
  have htie : |x.value - r| = |y.value - r| :=
    le_antisymm (hx.nearest y hy.finite) (hy.nearest x hx.finite)
  have hvalue : y.value ≠ x.value := by
    unfold value
    rw [hnegative]
    split
    · exact fun h => hsize.ne' (neg_inj.mp h)
    · exact hsize.ne'
  -- both magnitudes are even, so there is one between them, and that is nearer
  have hevenx := (even_significand x).mp (hx.even y hy.finite hvalue htie.symm)
  have heveny := (even_significand y).mp (hy.even x hx.finite hvalue.symm htie)
  have hnext : x.magnitude + 1 < y.magnitude := by
    rw [Nat.even_iff] at hevenx heveny
    omega
  have hbound : y.magnitude < infinityMagnitude := by simpa [isFinite] using hy.finite
  have hsign : x.magnitude + 1 < signBit := (hnext.trans hbound).trans (by decide)
  obtain ⟨z, hz⟩ : ∃ z, z = ofMagnitude x.negative (x.magnitude + 1) := ⟨_, rfl⟩
  have hmagnitude : z.magnitude = x.magnitude + 1 := by rw [hz, magnitude_ofMagnitude _ hsign]
  have hznegative : z.negative = x.negative := by rw [hz, negative_ofMagnitude _ hsign]
  have hfinite : z.isFinite = true := by
    rw [isFinite, decide_eq_true_iff, hmagnitude]
    exact hnext.trans hbound
  have hnearest := hx.nearest z hfinite
  rw [abs_value_sub rfl, abs_value_sub hnegative.symm] at htie
  rw [abs_value_sub rfl, abs_value_sub hznegative, hmagnitude] at hnearest
  have hlow : size x.magnitude < size (x.magnitude + 1) := size_strictMono (Nat.lt_succ_self _)
  have hhigh : size (x.magnitude + 1) < size y.magnitude := size_strictMono hnext
  generalize signed x.negative r = r' at htie hnearest
  have hmiddle : r' - size x.magnitude = size y.magnitude - r' := by
    rcases abs_eq_abs.mp htie with h | h <;> linarith
  rw [abs_sub_comm, abs_of_pos (by linarith : 0 < r' - size x.magnitude)] at hnearest
  rcases abs_cases (size (x.magnitude + 1) - r') with ⟨h, -⟩ | ⟨h, -⟩ <;> linarith

end Double

end RpnCalculator
