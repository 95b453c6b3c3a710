/-!
# Bits of numbers

Bitwise operations on integers of any size, and the operations on words that are not
plain arithmetic.

A negative integer stands for its two's complement, which has ones all the way up.  Its
constructor `Int.negSucc n` is the complement of `n`, so each operation on two integers
is one operation on natural numbers, complemented or not.

A word is a natural number below a modulus.  Addition, multiplication and the like need
nothing here: they are done on natural numbers and reduced afterwards.
-/

namespace RpnCalculator

namespace Bits

/-- The bits of `m` that are not set in `n`. -/
def without (m n : Nat) : Nat := m - (m &&& n)

/-- Bits set in both. -/
def and : Int → Int → Int
  | .ofNat m, .ofNat n => .ofNat (m &&& n)
  | .ofNat m, .negSucc n => .ofNat (without m n)
  | .negSucc m, .ofNat n => .ofNat (without n m)
  | .negSucc m, .negSucc n => .negSucc (m ||| n)

/-- Bits set in at least one. -/
def or : Int → Int → Int
  | .ofNat m, .ofNat n => .ofNat (m ||| n)
  | .ofNat m, .negSucc n => .negSucc (without n m)
  | .negSucc m, .ofNat n => .negSucc (without m n)
  | .negSucc m, .negSucc n => .negSucc (m &&& n)

/-- Bits set in exactly one. -/
def xor : Int → Int → Int
  | .ofNat m, .ofNat n => .ofNat (m ^^^ n)
  | .ofNat m, .negSucc n => .negSucc (m ^^^ n)
  | .negSucc m, .ofNat n => .negSucc (m ^^^ n)
  | .negSucc m, .negSucc n => .ofNat (m ^^^ n)

/-- The number of binary digits of the absolute value; zero has none. -/
def size (n : Int) : Nat := if n = 0 then 0 else n.natAbs.log2 + 1

/-! ## Words -/

/-- A power modulo `m`, by repeated squaring. -/
def powMod (m b n : Nat) : Nat :=
  go (1 % m) (b % m) n
where
  /-- `r · b ^ n`, modulo `m`. -/
  go (r b n : Nat) : Nat :=
    let r := if n % 2 = 1 then r * b % m else r
    if h : n / 2 = 0 then r else go r (b * b % m) (n / 2)
  termination_by n
  decreasing_by omega

/-- The difference of two words, modulo `m`. -/
def subMod (m a b : Nat) : Nat := (a + (m - b)) % m

/-- A word of `w` bits with every bit moved up and the highest moved to the bottom. -/
def rotateLeft (w b : Nat) : Nat := 2 * b % Nat.pow 2 w + b / Nat.pow 2 (w - 1)

/-- A word of `w` bits with every bit moved down and the lowest moved to the top. -/
def rotateRight (w b : Nat) : Nat := b / 2 + b % 2 * Nat.pow 2 (w - 1)

end Bits

end RpnCalculator
