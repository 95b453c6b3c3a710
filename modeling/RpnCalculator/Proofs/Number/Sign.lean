import RpnCalculator.Proofs.Number.Nearest

/-!
# What rounding never gives

An exact number can be too large for a double, and then it becomes an infinity.  It never becomes
a NaN, and its sign stays what it was, also when the number is so small that it becomes a zero.
`Double.HasSign` says both.

This is all that some callers have to know of the rounding: that the root of a number that is not
negative is real, and that a comparison finds a NaN only where there was one before.
-/

namespace RpnCalculator

namespace Double

/-- The double is no NaN, and its sign bit is the given one. -/
structure HasSign (negative : Bool) (x : Double) : Prop where
  isNaN : x.isNaN = false
  negative : x.negative = negative

theorem hasSign_ofMagnitude (negative : Bool) {m : Nat} (h : m ≤ infinityMagnitude) :
    HasSign negative (ofMagnitude negative m) := by
  have hbelow : m < signBit := h.trans_lt (by decide)
  constructor
  · rw [isNaN, magnitude_ofMagnitude negative hbelow, decide_eq_false_iff_not, Nat.not_lt]
    exact h
  · exact negative_ofMagnitude negative hbelow

theorem hasSign_ofRatio (negative : Bool) (n d : Nat) :
    HasSign negative (ofRatio negative n d) := by
  unfold ofRatio
  split
  · exact hasSign_ofMagnitude negative (Nat.zero_le _)
  · exact hasSign_ofMagnitude negative (Nat.min_le_right ..)

theorem hasSign_ofScaled (negative : Bool) (n : Nat) (e : Int) :
    HasSign negative (ofScaled negative n e) := by
  unfold ofScaled
  split
  · exact hasSign_ofRatio ..
  · exact hasSign_ofRatio ..

/-- So an integer keeps its sign, however many of its bits are cut off. -/
theorem hasSign_ofSigned (negative : Bool) (n : Nat) : HasSign negative (ofSigned negative n) :=
  hasSign_ofScaled negative (leadingBits n).1 (leadingBits n).2

theorem hasSign_ofNat (n : Nat) : HasSign false (ofNat n) := hasSign_ofSigned ..

theorem hasSign_ofInt (n : Int) : HasSign (decide (n < 0)) (ofInt n) := hasSign_ofSigned ..

theorem hasSign_ofRat (q : Rat) : HasSign (decide (q.num < 0)) (ofRat q) := hasSign_ofRatio ..

/-- A double without a sign bit is not below zero, a NaN included. -/
theorem less_zero_of_negative {x : Double} (h : x.negative = false) : x.less zero = false := by
  have hkey : ¬x.key < zero.key := by
    rw [key, h, show zero.key = 0 from rfl, if_neg Bool.false_ne_true]
    omega
  rw [less, compare?, if_neg hkey]
  split
  · rfl
  · split <;> rfl

end Double

end RpnCalculator
