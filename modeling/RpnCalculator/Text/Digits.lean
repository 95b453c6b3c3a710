/-!
# Writing numbers

The decimal digits of a natural number, most significant first.  The standard library has
them as `Nat.toDigits 10`, and `writeDecimal` is the same list (`writeDecimal_eq`).  The
difference is in the cost: a power can have a hundred thousand digits, and dividing so
large a number by ten once for each of them takes seconds.  Here it is divided by a
large power of ten, and the digits of a block come from a remainder that is small.
-/

namespace RpnCalculator
namespace Text

/-- How many digits are split off at once. -/
def blockLength : Nat := 18

/-- Ten to the length of a block. -/
def blockSize : Nat := Nat.pow 10 blockLength

theorem one_lt_blockSize : 1 < blockSize := by
  decide

/-- The last `k` digits of a number, in front of other digits. -/
def lastDigits : Nat → Nat → List Char → List Char
  | 0, _, rest => rest
  | k + 1, n, rest => lastDigits k (n / 10) ((n % 10).digitChar :: rest)

/-- The digits of a number, in front of other digits. -/
def digitsBefore (n : Nat) (rest : List Char) : List Char :=
  if n < blockSize then Nat.toDigits 10 n ++ rest
  else digitsBefore (n / blockSize) (lastDigits blockLength (n % blockSize) rest)
termination_by n
decreasing_by
  have := one_lt_blockSize
  exact Nat.div_lt_self (by omega) this

/-- The decimal digits of a number. -/
def writeDecimal (n : Nat) : List Char :=
  if n < blockSize then Nat.toDigits 10 n else digitsBefore n []

/-- The decimal digits of an integer, after a minus sign if it is negative. -/
def writeInteger (n : Int) : List Char :=
  if n < 0 then '-' :: writeDecimal n.natAbs else writeDecimal n.natAbs

/-- A natural number in a message. -/
def ofNat (n : Nat) : String := String.ofList (writeDecimal n)

/-- An integer in a message. -/
def ofInt (n : Int) : String := String.ofList (writeInteger n)

/-- The digits of a block complete those of what is in front of the block. -/
theorem toDigits_append_lastDigits {q : Nat} (hq : 0 < q) (k : Nat) {r : Nat}
    (hr : r < Nat.pow 10 k) (rest : List Char) :
    Nat.toDigits 10 q ++ lastDigits k r rest =
      Nat.toDigits 10 (Nat.pow 10 k * q + r) ++ rest := by
  induction k generalizing r rest with
  | zero =>
    obtain rfl : r = 0 := by simpa using hr
    simp [lastDigits]
  | succ k ih =>
    have hk : Nat.pow 10 (k + 1) = 10 * Nat.pow 10 k := Nat.pow_succ'
    rw [hk] at hr ⊢
    have hmul : 0 < Nat.pow 10 k * q := Nat.mul_pos (Nat.pow_pos (by decide)) hq
    have hsplit :
        10 * Nat.pow 10 k * q + r = 10 * (Nat.pow 10 k * q + r / 10) + r % 10 := by
      rw [Nat.mul_assoc]
      omega
    have hd : r % 10 < 10 := Nat.mod_lt r (by decide)
    rw [lastDigits, ih (by omega), hsplit,
      ← Nat.toDigits_append_toDigits (by decide) (by omega) hd, Nat.toDigits_of_lt_base hd]
    simp

theorem digitsBefore_eq (n : Nat) (rest : List Char) :
    digitsBefore n rest = Nat.toDigits 10 n ++ rest := by
  fun_induction digitsBefore n rest with
  | case1 => rfl
  | case2 n rest h ih =>
    have hpos : 0 < blockSize := Nat.zero_lt_of_lt one_lt_blockSize
    have hq : 0 < n / blockSize := Nat.div_pos (Nat.not_lt.mp h) hpos
    have hr : n % blockSize < Nat.pow 10 blockLength := Nat.mod_lt n hpos
    have hn : Nat.pow 10 blockLength * (n / blockSize) + n % blockSize = n :=
      Nat.div_add_mod n blockSize
    rw [ih, toDigits_append_lastDigits hq blockLength hr, hn]

/-- **Blocks change the cost and not the digits.** -/
theorem writeDecimal_eq (n : Nat) : writeDecimal n = Nat.toDigits 10 n := by
  unfold writeDecimal
  split
  · rfl
  · rw [digitsBefore_eq, List.append_nil]

end Text
end RpnCalculator
