import Mathlib.Data.Int.Bitwise
import Mathlib.Data.Int.ModEq
import Mathlib.Data.Nat.ModEq
import Mathlib.Data.Set.Function
import Mathlib.Logic.Function.Iterate
import Mathlib.Order.Interval.Set.Defs
import Mathlib.Tactic.Ring
import RpnCalculator.Number.Bits

/-!
# Bits of numbers

What the operations of `Number.Bits` come to.

* `testBit_and`, `testBit_or`, `testBit_xor`: the operations on integers, each written by the
  signs of its operands, go bit by bit.
* `testBit_emod`: the remainder by a power of two is the low bits, whatever the sign.
* `subMod_modEq`, `powMod_eq`: the difference and the power of words are those of integers.
* `testBit_rotateLeft`: a rotation moves each bit to the next place.

## Rotations

A word of `w` bits is its highest bit and the `w - 1` bits below it (`exists_high_low`).  A
rotation to the left puts the highest bit below the others, one to the right takes it back
(`rotateLeft_high_low`, `rotateRight_low_high`).  Everything about rotations is read off these
two equations, without a word of width one being a case of its own.
-/

namespace RpnCalculator

namespace Bits

/-! ## Integers, bit by bit -/

theorem without_div_two (m n : Nat) : without m n / 2 = without (m / 2) (n / 2) := by
  have hlow : (m &&& n) % 2 = 1 ↔ m % 2 = 1 ∧ n % 2 = 1 := Nat.and_mod_two_eq_one
  have hhigh : (m &&& n) / 2 = m / 2 &&& n / 2 := Nat.and_div_two
  unfold without
  omega

theorem testBit_without (m n i : Nat) :
    (without m n).testBit i = (m.testBit i && !n.testBit i) := by
  induction i generalizing m n with
  | zero =>
    have hle : m &&& n ≤ m := Nat.and_le_left
    have hlow : (m &&& n) % 2 = 1 ↔ m % 2 = 1 ∧ n % 2 = 1 := Nat.and_mod_two_eq_one
    simp only [without, Nat.testBit_zero]
    rw [← decide_not, ← Bool.decide_and, decide_eq_decide]
    omega
  | succ i ih =>
    rw [Nat.testBit_succ, without_div_two, ih, Nat.testBit_succ, Nat.testBit_succ]

section

variable (m n : Int) (i : Nat)

theorem testBit_and : (Bits.and m n).testBit i = (m.testBit i && n.testBit i) := by
  cases m <;> cases n <;>
    simp [Bits.and, Int.testBit, testBit_without, Bool.and_comm]

theorem testBit_or : (Bits.or m n).testBit i = (m.testBit i || n.testBit i) := by
  cases m <;> cases n <;>
    simp [Bits.or, Int.testBit, testBit_without, Bool.or_comm]

theorem testBit_xor : (Bits.xor m n).testBit i = (m.testBit i ^^ n.testBit i) := by
  cases m <;> cases n <;> simp [Bits.xor, Int.testBit]

/-- **The low bits of an integer** are its remainder by a power of two, also below zero. -/
theorem testBit_emod (w : Nat) :
    (m % 2 ^ w).toNat.testBit i = (decide (i < w) && m.testBit i) := by
  have hpow : ((2 : Int) ^ w) = ((2 ^ w : Nat) : Int) := by rw [Nat.cast_pow]; rfl
  rw [hpow]
  cases m with
  | ofNat n =>
    have hrem : ((n : Int) % (2 ^ w : Nat)).toNat = n % 2 ^ w := by
      rw [← Int.natCast_emod, Int.toNat_natCast]
    rw [Int.ofNat_eq_natCast, hrem, Nat.testBit_mod_two_pow]
    rfl
  | negSucc n =>
    have hlt : n % 2 ^ w < 2 ^ w := Nat.mod_lt n (Nat.two_pow_pos w)
    -- the complement of the low bits of `n`
    have hrem : (Int.negSucc n % (2 ^ w : Nat)).toNat = 2 ^ w - (n % 2 ^ w + 1) := by
      rw [Int.negSucc_emod n (by exact_mod_cast Nat.two_pow_pos w), ← Int.natCast_emod]
      omega
    rw [hrem, Nat.testBit_two_pow_sub_succ hlt, Nat.testBit_mod_two_pow]
    cases hi : decide (i < w) with
    | false => rfl
    | true => simp [Int.testBit]

end

/-! ## Differences and powers -/

/-- The difference of words is congruent to that of integers. -/
theorem subMod_modEq {m b : Nat} (h : b ≤ m) (a : Nat) :
    (subMod m a b : Int) ≡ a - b [ZMOD m] := by
  have hcast : ((a + (m - b) : Nat) : Int) = a - b + m := by omega
  calc (subMod m a b : Int) = ((a + (m - b) : Nat) : Int) % m := Int.natCast_emod _ _
    _ ≡ ((a + (m - b) : Nat) : Int) [ZMOD m] := Int.mod_modEq _ _
    _ = a - b + m := hcast
    _ ≡ a - b [ZMOD m] := Int.add_modEq_right

theorem powMod_go_eq (m r b n : Nat) : powMod.go m (r % m) b n = r * b ^ n % m := by
  induction n using Nat.strongRecOn generalizing r b with
  | ind n ih =>
    have hodd : (if n % 2 = 1 then r % m * b % m else r % m) = r * b ^ (n % 2) % m := by
      rcases Nat.mod_two_eq_zero_or_one n with h | h <;> simp [h]
    rw [powMod.go]
    simp only [hodd]
    split
    · rename_i hn
      rw [show n % 2 = n by omega]
    · rename_i hn
      have hsplit : b ^ n = b ^ (n % 2) * (b * b) ^ (n / 2) := by
        rw [← pow_two, ← pow_mul, ← pow_add, Nat.mod_add_div]
      rw [ih _ (by omega), hsplit, ← mul_assoc, Nat.mul_mod, ← Nat.pow_mod, ← Nat.mul_mod]

/-- **Repeated squaring gives the power.** -/
theorem powMod_eq (m b n : Nat) : powMod m b n = b ^ n % m := by
  rw [powMod, powMod_go_eq, one_mul, ← Nat.pow_mod]

/-! ## Rotations -/

section Rotations

variable {w b : Nat}

theorem two_pow_eq_double (hw : 1 ≤ w) : 2 ^ w = 2 * 2 ^ (w - 1) := by
  rw [← Nat.pow_succ', Nat.succ_eq_add_one, Nat.sub_add_cancel hw]

/-- A word is its highest bit and those below it. -/
theorem exists_high_low (hw : 1 ≤ w) (hb : b < 2 ^ w) :
    ∃ high low, high < 2 ∧ low < 2 ^ (w - 1) ∧ b = 2 ^ (w - 1) * high + low := by
  refine ⟨b / 2 ^ (w - 1), b % 2 ^ (w - 1), ?_, Nat.mod_lt _ (Nat.two_pow_pos _),
    (Nat.div_add_mod ..).symm⟩
  rw [Nat.div_lt_iff_lt_mul (Nat.two_pow_pos _), ← two_pow_eq_double hw]
  exact hb

/-- It is its lowest bit and those above it as well. -/
theorem exists_low_high (hw : 1 ≤ w) (hb : b < 2 ^ w) :
    ∃ high low, high < 2 ∧ low < 2 ^ (w - 1) ∧ b = 2 * low + high := by
  refine ⟨b % 2, b / 2, Nat.mod_lt b (by decide), ?_, (Nat.div_add_mod b 2).symm⟩
  rw [two_pow_eq_double hw] at hb
  omega

/-- The highest bit goes below the others. -/
theorem rotateLeft_high_low (hw : 1 ≤ w) {low : Nat} (hlow : low < 2 ^ (w - 1)) (high : Nat) :
    rotateLeft w (2 ^ (w - 1) * high + low) = 2 * low + high := by
  have hpos : 0 < 2 ^ (w - 1) := Nat.two_pow_pos _
  have hdouble : 2 * (2 ^ (w - 1) * high + low) % 2 ^ w = 2 * low := by
    rw [two_pow_eq_double hw, Nat.mul_mod_mul_left, Nat.mul_add_mod_self_left,
      Nat.mod_eq_of_lt hlow]
  have htop : (2 ^ (w - 1) * high + low) / 2 ^ (w - 1) = high := by
    rw [Nat.mul_add_div hpos, Nat.div_eq_of_lt hlow, Nat.add_zero]
  show 2 * (2 ^ (w - 1) * high + low) % 2 ^ w + (2 ^ (w - 1) * high + low) / 2 ^ (w - 1) = _
  rw [hdouble, htop]

/-- And back above them. -/
theorem rotateRight_low_high {high : Nat} (hhigh : high < 2) (low : Nat) :
    rotateRight w (2 * low + high) = 2 ^ (w - 1) * high + low := by
  show (2 * low + high) / 2 + (2 * low + high) % 2 * 2 ^ (w - 1) = _
  rw [show (2 * low + high) / 2 = low by omega, show (2 * low + high) % 2 = high by omega,
    Nat.mul_comm, Nat.add_comm]

/-- A rotated word is a word. -/
theorem mapsTo_rotateLeft (hw : 1 ≤ w) :
    Set.MapsTo (rotateLeft w) (Set.Iio (2 ^ w)) (Set.Iio (2 ^ w)) := by
  intro b hb
  obtain ⟨high, low, hhigh, hlow, rfl⟩ := exists_high_low hw hb
  rw [Set.mem_Iio, rotateLeft_high_low hw hlow, two_pow_eq_double hw]
  omega

theorem mapsTo_rotateRight (hw : 1 ≤ w) :
    Set.MapsTo (rotateRight w) (Set.Iio (2 ^ w)) (Set.Iio (2 ^ w)) := by
  intro b hb
  obtain ⟨high, low, hhigh, hlow, rfl⟩ := exists_low_high hw hb
  have hle : 2 ^ (w - 1) * high ≤ 2 ^ (w - 1) * 1 :=
    Nat.mul_le_mul_left _ (Nat.le_of_lt_succ hhigh)
  rw [Set.mem_Iio, rotateRight_low_high hhigh, two_pow_eq_double hw]
  omega

/-- **The rotations undo each other.** -/
theorem rotateRight_rotateLeft (hw : 1 ≤ w) (hb : b < 2 ^ w) :
    rotateRight w (rotateLeft w b) = b := by
  obtain ⟨high, low, hhigh, hlow, rfl⟩ := exists_high_low hw hb
  rw [rotateLeft_high_low hw hlow, rotateRight_low_high hhigh]

theorem rotateLeft_rotateRight (hw : 1 ≤ w) (hb : b < 2 ^ w) :
    rotateLeft w (rotateRight w b) = b := by
  obtain ⟨high, low, hhigh, hlow, rfl⟩ := exists_low_high hw hb
  rw [rotateRight_low_high hhigh, rotateLeft_high_low hw hlow]

/-- **A rotation to the left moves each bit up by one**, and the highest to the bottom. -/
theorem testBit_rotateLeft (hb : b < 2 ^ w) {i : Nat} (hi : i < w) :
    (rotateLeft w b).testBit ((i + 1) % w) = b.testBit i := by
  have hw : 1 ≤ w := Nat.one_le_of_lt hi
  obtain ⟨high, low, hhigh, hlow, rfl⟩ := exists_high_low hw hb
  rw [rotateLeft_high_low hw hlow, Nat.testBit_two_pow_mul_add _ hlow]
  by_cases htop : i < w - 1
  · rw [if_pos htop, Nat.mod_eq_of_lt (by omega), Nat.testBit_succ]
    congr 1
    omega
  · obtain rfl : i = w - 1 := by omega
    rw [if_neg htop, Nat.sub_add_cancel hw, Nat.mod_self, Nat.sub_self, Nat.testBit_zero,
      Nat.testBit_zero]
    congr 2
    omega

/-- Several rotations to the left move it up by as many. -/
theorem testBit_iterate_rotateLeft (hb : b < 2 ^ w) {i : Nat} (hi : i < w) (k : Nat) :
    ((rotateLeft w)^[k] b).testBit ((i + k) % w) = b.testBit i := by
  have hw : 1 ≤ w := Nat.one_le_of_lt hi
  induction k with
  | zero => rw [Nat.add_zero, Nat.mod_eq_of_lt hi, Function.iterate_zero_apply]
  | succ k ih =>
    have hlt : (rotateLeft w)^[k] b < 2 ^ w := (mapsTo_rotateLeft hw).iterate k hb
    have hplace : (i + k) % w < w := Nat.mod_lt _ hw
    rw [Function.iterate_succ_apply', ← ih, ← testBit_rotateLeft hlt hplace, Nat.mod_add_mod,
      Nat.add_assoc]

/-- **As many rotations as there are bits** change nothing. -/
theorem iterate_rotateLeft (hw : 1 ≤ w) (hb : b < 2 ^ w) : (rotateLeft w)^[w] b = b := by
  have hlt : (rotateLeft w)^[w] b < 2 ^ w := (mapsTo_rotateLeft hw).iterate w hb
  apply Nat.eq_of_testBit_eq
  intro i
  by_cases hi : i < w
  · have hbit := testBit_iterate_rotateLeft hb hi w
    rwa [Nat.add_mod_right, Nat.mod_eq_of_lt hi] at hbit
  · have hpow : 2 ^ w ≤ 2 ^ i := Nat.pow_le_pow_right (by decide) (by omega)
    rw [Nat.testBit_lt_two_pow (hlt.trans_le hpow), Nat.testBit_lt_two_pow (hb.trans_le hpow)]

/-- Rotations to the left take back as many to the right. -/
theorem iterate_rotateLeft_rotateRight (hw : 1 ≤ w) (hb : b < 2 ^ w) (k : Nat) :
    (rotateLeft w)^[k] ((rotateRight w)^[k] b) = b := by
  induction k with
  | zero => rfl
  | succ k ih =>
    have hlt : (rotateRight w)^[k] b < 2 ^ w := (mapsTo_rotateRight hw).iterate k hb
    rw [Function.iterate_succ_apply, Function.iterate_succ_apply', rotateLeft_rotateRight hw hlt,
      ih]

theorem iterate_rotateRight (hw : 1 ≤ w) (hb : b < 2 ^ w) : (rotateRight w)^[w] b = b := by
  have hlt : (rotateRight w)^[w] b < 2 ^ w := (mapsTo_rotateRight hw).iterate w hb
  have hback := iterate_rotateLeft_rotateRight hw hb w
  rwa [iterate_rotateLeft hw hlt] at hback

end Rotations

end Bits

end RpnCalculator
